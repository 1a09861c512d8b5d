import TcpTests.Lib.Lines
import TcpTests.Nbserver.Server

/-! The echo of `nbserver` and TCP segmentation. A line that comes in pieces is echoed piece by
piece, and an empty line is taken for a lost connection. -/
namespace TcpTests.Nbserver
open Lib Sockhelp Text

/-- What is to be sent back for a line. -/
def reply (line : List Byte) : List Byte := (line.take myMxRcv).map toupper ++ [lf]

def echo (lines : List (List Byte)) : List Byte := lines.flatMap reply

/-- Some of the finished lines have been echoed and nothing else was sent; once nothing is
pending, all of them have been. -/
def Conn.Echoes (c : Conn) : Prop :=
  ∃ j ≤ (splitLines lf c.arrived).1.length,
    c.sent = echo ((splitLines lf c.arrived).1.take j) ∧
      (c.pending = [] → j = (splitLines lf c.arrived).1.length)

/-- Every connection that was given a slot is open and echoes its lines. Nothing is said of those
that were refused because all slots were taken. -/
structure NbServer.Echoes (s : NbServer) : Prop where
  lost : s.lost = []
  defined : s.pc ≠ .undefined
  conns : ∀ fd c, s.conns fd = some c → c.Echoes

/-- No client closes, nothing fails, and every reply is accepted in full. -/
def Event.Quiet : Event → Prop
  | .ends _ _ | .fails => False
  | .read outs => ∃ n rest, outs = .accepted n :: rest ∧ myMxRcv + 1 ≤ n
  | _ => True

def Conn.line (c : Conn) : List Byte := c.pending.takeWhile (· ≠ lf)

/-- The pending bytes begin with a finished line that is not empty and whose reply can be
rendered for display. -/
def Conn.HasLine (c : Conn) : Prop :=
  lf ∈ c.pending ∧ c.line ≠ [] ∧ (cleanData (c.line.take myMxRcv)).length + 3 ≤ bufferSize

instance (c : Conn) : Decidable c.HasLine := inferInstanceAs (Decidable (_ ∧ _))

def ReadsLine (s : NbServer) (e : Event) : Prop :=
  match e, s.pc with
  | .read _, .read listnum =>
    s.connectlist listnum ≠ 0 → s.connectlist listnum ∈ s.socks →
      ∀ c ∈ s.conns (s.connectlist listnum), c.HasLine
  | _, _ => True

instance (s : NbServer) (e : Event) : Decidable (ReadsLine s e) := by
  unfold ReadsLine
  split <;> infer_instance

/-- The connection has read whole lines and echoed them. -/
def Conn.Aligned (c : Conn) : Prop :=
  c.idle = .again ∧ ∃ lines, (∀ l ∈ lines, lf ∉ l) ∧
    c.arrived = joinLines lf lines ++ c.pending ∧ c.sent = echo lines

structure NbServer.Aligned (s : NbServer) : Prop where
  lost : s.lost = []
  defined : s.pc ≠ .undefined
  conns : ∀ fd c, s.conns fd = some c → c.Aligned

section Conn
variable {c : Conn} {l rest : List Byte} {n : ℕ} {outs : List WriteOutcome}

theorem echo_append (ls ms : List (List Byte)) : echo (ls ++ ms) = echo ls ++ echo ms :=
  List.flatMap_append

theorem echo_concat (ls : List (List Byte)) (l : List Byte) :
    echo (ls ++ [l]) = echo ls ++ reply l := by
  rw [echo_append, echo, echo, List.flatMap_singleton]

theorem Conn.Aligned.echoes (hc : c.Aligned) : c.Echoes := by
  obtain ⟨-, lines, hlines, harrived, hsent⟩ := hc
  have hsplit : (splitLines lf c.arrived).1 = lines ++ (splitLines lf c.pending).1 := by
    rw [harrived, splitLines_joinLines hlines]
  refine ⟨lines.length, ?_, ?_, ?_⟩
  · rw [hsplit, List.length_append]
    omega
  · rw [hsplit, List.take_left, hsent]
  · intro hp
    rw [hsplit, hp, List.length_append]
    rfl

theorem Conn.Aligned.fresh : Conn.fresh.Aligned := ⟨rfl, [], by simp, rfl, rfl⟩

theorem Conn.Aligned.arrive (hc : c.Aligned) (bytes : List Byte) :
    Conn.Aligned { c with arrived := c.arrived ++ bytes, pending := c.pending ++ bytes } := by
  obtain ⟨hidle, lines, hlines, harrived, hsent⟩ := hc
  refine ⟨hidle, lines, hlines, ?_, hsent⟩
  change c.arrived ++ bytes = _
  rw [harrived, List.append_assoc]

theorem respond_eq (hl : lf ∉ l) : respond l = l.map toupper ++ [lf] := by
  have hup : ∀ b : Byte, toupper b = lf → b = lf := by decide
  have hlast : (l.map toupper).getLast? ≠ some lf := by
    intro h
    obtain ⟨b, hb, hbl⟩ := List.mem_map.mp (List.mem_of_getLast? h)
    exact hl (hup b hbl ▸ hb)
  unfold respond
  dsimp only
  rw [if_pos hlast]

/-- The reply fits the array for display just when the line leaves room for the linefeed. -/
theorem cleanFits_respond (hl : lf ∉ l) :
    CleanFits bufferSize (respond l) ↔ (cleanData l).length + 3 ≤ bufferSize := by
  have hlf : (cleanData [lf]).length = 2 := by decide
  rw [respond_eq hl, CleanFits, cleanData_append, List.length_append, cleanData_toupper_length,
    hlf]
  omega

theorem dealWithData_str {r : Gets} (hr : sockGets c.idle myMxRcv c.pending = r)
    (hret : r.ret = (r.str.length : ℤ)) (hstr : lf ∉ r.str) (hle : r.str.length ≤ myMxRcv)
    (hn : myMxRcv + 1 ≤ n) :
    dealWithData c (.accepted n :: outs) =
      if r.str = [] then some (.closes { c with pending := r.rest })
      else if (cleanData r.str).length + 3 ≤ bufferSize then
        some (.goesOn { c with
          pending := r.rest, sent := c.sent ++ (r.str.map toupper ++ [lf]) })
      else some .undefined := by
  unfold dealWithData
  rw [hr]
  dsimp only
  rw [hret]
  by_cases hnil : r.str = []
  · rw [if_pos hnil, if_pos (by rw [hnil]; decide)]
  · have hpos : 0 < r.str.length := List.length_pos_iff.mpr hnil
    have hwrite : sockWrite (respond r.str) (.accepted n :: outs) =
        some (respond r.str, ((respond r.str).length : ℤ)) := by
      rw [respond_eq hstr]
      apply sockWrite_accepted (by simp)
      rw [List.length_append, List.length_map, List.length_singleton]
      omega
    rw [if_neg hnil, if_neg (by omega), hwrite, Option.map_some]
    have hfits := cleanFits_respond hstr
    by_cases hroom : (cleanData r.str).length + 3 ≤ bufferSize
    · have hfirst : CleanFits bufferSize r.str := by
        unfold CleanFits
        omega
      rw [if_pos hroom, if_neg (not_not_intro hfirst), if_neg (not_not_intro (hfits.mpr hroom)),
        respond_eq hstr]
    · have hsecond : ¬ CleanFits bufferSize (respond r.str) := fun h => hroom (hfits.mp h)
      rw [if_neg hroom, if_pos hsecond, ite_self]

end Conn

section Step
variable {s t : NbServer} {e : Event}

theorem NbServer.Aligned.echoes (hs : s.Aligned) : s.Echoes :=
  ⟨hs.lost, hs.defined, fun fd c hc => (hs.conns fd c hc).echoes⟩

theorem NbServer.Aligned.start (sock : ℕ) : (NbServer.start sock).Aligned :=
  ⟨rfl, nofun, nofun⟩

theorem NbServer.Aligned.same (hs : s.Aligned) (hlost : t.lost = s.lost)
    (hpc : t.pc ≠ .undefined) (hconns : t.conns = s.conns) : t.Aligned := by
  refine ⟨hlost.trans hs.lost, hpc, ?_⟩
  rw [hconns]
  exact hs.conns

theorem NbServer.Aligned.update (hs : s.Aligned) {fd : ℕ} {c : Conn} (hlost : t.lost = s.lost)
    (hpc : t.pc ≠ .undefined) (hconns : t.conns = Function.update s.conns fd (some c))
    (hc : c.Aligned) : t.Aligned := by
  refine ⟨hlost.trans hs.lost, hpc, ?_⟩
  rw [hconns]
  exact forall_update_some hs.conns hc

theorem handleNewConnection_aligned (hs : s.Aligned) (connection : ℕ) :
    (s.handleNewConnection connection).Aligned := by
  unfold NbServer.handleNewConnection
  dsimp only
  split
  · exact hs.update rfl nofun rfl Conn.Aligned.fresh
  · exact hs.same rfl nofun rfl

/-- What a read does to a connection that has a line, and what it does to one that has not. -/
theorem dealWithData_hasLine {c : Conn} {n : ℕ} {outs : List WriteOutcome} (hc : c.Aligned)
    (hn : myMxRcv + 1 ≤ n) (hl : c.HasLine) :
    ∃ c', dealWithData c (.accepted n :: outs) = some (.goesOn c') ∧ c'.Aligned := by
  obtain ⟨hidle, lines, hlines, harrived, hsent⟩ := hc
  obtain ⟨hmem, hne, hroom⟩ := hl
  obtain ⟨l, rest, hp, hlf⟩ := List.eq_append_cons_of_mem hmem
  have hline : c.line = l := by rw [Conn.line, hp, takeWhile_line hlf]
  rw [hline] at hne hroom
  have hr := @sockGets_line c.idle myMxRcv l rest hlf
  rw [← hp] at hr
  have hnil : l.take myMxRcv ≠ [] := by
    cases l with
    | nil => exact absurd rfl hne
    | cons b bs => exact List.cons_ne_nil _ _
  have hdeal := @dealWithData_str c n outs _ hr rfl (fun h => hlf (List.mem_of_mem_take h))
    (List.length_take_le _ _) hn
  rw [if_neg hnil, if_pos hroom] at hdeal
  refine ⟨_, hdeal, hidle, lines ++ [l], ?_, ?_, ?_⟩
  · intro m hm
    rcases List.mem_append.mp hm with hm | hm
    · exact hlines m hm
    · rwa [List.mem_singleton.mp hm]
  · rw [joinLines_concat]
    change c.arrived = _
    rw [harrived, hp]
    simp
  · change c.sent ++ _ = _
    rw [echo_concat, hsent]
    rfl

/-- Without a line to read the connection is closed, more is sent than there are lines, or the
array for display is overrun. -/
theorem dealWithData_noLine {c : Conn} {n : ℕ} {outs : List WriteOutcome} {d : Dealt}
    (hc : c.Aligned) (hn : myMxRcv + 1 ≤ n) (hl : ¬ c.HasLine)
    (hd : dealWithData c (.accepted n :: outs) = some d) :
    (∃ c', d = .closes c') ∨ d = .undefined ∨ ∃ c', d = .goesOn c' ∧ ¬ c'.Echoes := by
  obtain ⟨hidle, lines, hlines, harrived, hsent⟩ := hc
  by_cases hmem : lf ∈ c.pending
  · obtain ⟨l, rest, hp, hlf⟩ := List.eq_append_cons_of_mem hmem
    have hr := @sockGets_line c.idle myMxRcv l rest hlf
    rw [← hp] at hr
    rw [dealWithData_str hr rfl (fun h => hlf (List.mem_of_mem_take h))
      (List.length_take_le _ _) hn] at hd
    split_ifs at hd with hnil hroom
    · cases hd
      exact Or.inl ⟨_, rfl⟩
    · have hline : c.line = l := by rw [Conn.line, hp, takeWhile_line hlf]
      refine absurd ⟨hmem, ?_, by rwa [hline]⟩ hl
      rw [hline]
      rintro rfl
      exact hnil rfl
    · cases hd
      exact Or.inr (Or.inl rfl)
  · have hr := @sockGets_noLine myMxRcv c.pending hmem
    rw [← hidle] at hr
    rw [dealWithData_str hr rfl (fun h => hmem (List.mem_of_mem_take h))
      (List.length_take_le _ _) hn] at hd
    split_ifs at hd with hnil hroom
    · cases hd
      exact Or.inl ⟨_, rfl⟩
    · cases hd
      refine Or.inr (Or.inr ⟨_, rfl, ?_⟩)
      rintro ⟨j, -, hecho, -⟩
      dsimp only at hecho
      have hall : (splitLines lf c.arrived).1 = lines := by
        rw [harrived, splitLines_joinLines hlines, splitLines_of_notMem hmem, List.append_nil]
      have hle : (echo (lines.take j)).length ≤ (echo lines).length := by
        conv_rhs => rw [← List.take_append_drop j lines, echo_append, List.length_append]
        omega
      rw [hall, hsent] at hecho
      have hlen := congrArg List.length hecho
      rw [List.length_append, List.length_append, List.length_singleton] at hlen
      omega
    · cases hd
      exact Or.inr (Or.inl rfl)

theorem step_aligned (hs : s.Aligned) (hq : e.Quiet) (hr : ∀ outs, e ≠ .read outs)
    (h : step s e = some t) : t.Aligned := by
  unfold step at h
  split at h
  · cases h
    exact hs.same rfl hs.defined rfl
  · obtain ⟨c, hc, rfl⟩ := Option.map_eq_some_iff.mp h
    exact hs.update rfl hs.defined rfl ((hs.conns _ c hc).arrive _)
  · exact hq.elim
  · cases h
    refine hs.same rfl ?_ rfl
    change (if _ then _ else _) ≠ _
    split_ifs <;> nofun
  · split_ifs at h
    cases h
    exact handleNewConnection_aligned hs _
  · exact absurd rfl (hr _)
  · cases h
    refine hs.same rfl ?_ rfl
    change (if _ then _ else _) ≠ _
    split_ifs <;> nofun
  · exact hq.elim
  · exact hq.elim
  · cases h

theorem read_aligned {outs : List WriteOutcome} (hs : s.Aligned) (hq : (Event.read outs).Quiet)
    (h : step s (.read outs) = some t) (hg : ReadsLine s (.read outs)) : t.Aligned := by
  obtain ⟨n, rest, rfl, hn⟩ := hq
  obtain ⟨listnum, hpc, h⟩ := step_read h
  rcases readSlot_cases h with ⟨-, rfl⟩ | ⟨c, d, hfd, hmem, hc, hd, rfl⟩
  · exact hs.same rfl (nextSlot_pc s listnum) rfl
  · have hline : c.HasLine := by
      unfold ReadsLine at hg
      simp only [hpc] at hg
      exact hg hfd hmem c hc
    obtain ⟨c', hdeal, hc'⟩ := dealWithData_hasLine (hs.conns _ c hc) hn hline
    cases hd.symm.trans hdeal
    exact hs.update rfl (nextSlot_pc s listnum) rfl hc'

theorem read_not_echoes {outs : List WriteOutcome} (hs : s.Aligned)
    (hq : (Event.read outs).Quiet) (h : step s (.read outs) = some t)
    (hg : ¬ ReadsLine s (.read outs)) : ¬ t.Echoes := by
  obtain ⟨n, rest, rfl, hn⟩ := hq
  obtain ⟨listnum, hpc, h⟩ := step_read h
  unfold ReadsLine at hg
  simp only [hpc] at hg
  rcases readSlot_cases h with ⟨hskip, rfl⟩ | ⟨c, d, hfd, hmem, hc, hd, rfl⟩
  · exact absurd (fun h₁ h₂ => absurd ⟨h₁, h₂⟩ hskip) hg
  · have hline : ¬ c.HasLine := by
      intro hline
      apply hg
      intro _ _ c' hc'
      cases hc.symm.trans hc'
      exact hline
    rcases dealWithData_noLine (hs.conns _ c hc) hn hline hd with ⟨c', rfl⟩ | rfl | ⟨c', rfl, hc'⟩
    · intro he
      have hlost := he.lost
      simp [NbServer.dealt] at hlost
    · exact fun he => he.defined rfl
    · exact fun he => hc' (he.conns _ c' (Function.update_self _ _ _))

theorem readsLine_of_ne (hr : ∀ outs, e ≠ .read outs) : ReadsLine s e := by
  cases e with
  | read outs => exact absurd rfl (hr outs)
  | _ => trivial

end Step

/-- In a run in which no client closes, nothing fails and the replies are accepted in full,
every connection is kept open and has its finished lines echoed, and nothing else, just when
every read finds a finished line that is not empty and whose reply can be displayed. -/
theorem echo_iff (sock : ℕ) (es : List Event) (s : NbServer)
    (hq : ∀ e ∈ es, e.Quiet) (hr : runs step (.start sock) es = some s) :
    AllStates step NbServer.Echoes (.start sock) es ↔ AllSteps step ReadsLine (.start sock) es := by
  refine allStates_iff_allSteps (Q := fun _ e => e.Quiet) (fun _ hs => hs.echoes) ?_ ?_
    (NbServer.Aligned.start sock) (allSteps_of_inputs hq) hr
  · intro s e t hs hq h hg
    by_cases hread : ∃ outs, e = .read outs
    · obtain ⟨outs, rfl⟩ := hread
      exact read_aligned hs hq h hg
    · exact step_aligned hs hq (fun outs he => hread ⟨outs, he⟩) h
  · intro s e t hs hq h hg
    by_cases hread : ∃ outs, e = .read outs
    · obtain ⟨outs, rfl⟩ := hread
      exact read_not_echoes hs hq h hg
    · exact absurd (readsLine_of_ne fun outs he => hread ⟨outs, he⟩) hg

def sampleReads : List Event := List.replicate 5 (.read [.accepted 129])

/-- A client connects, and some bytes arrive on the connection. -/
def sampleRun (bytes : List Byte) : List Event :=
  [.connect, .select, .accept 4] ++ sampleReads ++
    [.checkKeys false, .arrive 4 bytes, .select] ++ sampleReads

theorem sampleRun_quiet (bytes : List Byte) : ∀ e ∈ sampleRun bytes, e.Quiet := by
  have hreads : ∀ e ∈ sampleReads, e.Quiet := by
    intro e he
    rw [List.eq_of_mem_replicate he]
    exact ⟨129, [], rfl, le_rfl⟩
  intro e he
  simp only [sampleRun, List.mem_append, List.mem_cons, List.not_mem_nil, or_false] at he
  rcases he with ((((rfl | rfl | rfl) | he) | (rfl | rfl | rfl)) | he)
  · trivial
  · trivial
  · trivial
  · exact hreads e he
  · trivial
  · trivial
  · trivial
  · exact hreads e he

/-- A whole line in one arrival. -/
theorem echo_iff_sample :
    AllStates step NbServer.Echoes (.start 3) (sampleRun [0x61#8, lf]) := by
  obtain ⟨s, hs⟩ := Option.isSome_iff_exists.mp
    (show (runs step (.start 3) (sampleRun [0x61#8, lf])).isSome = true by decide)
  exact (echo_iff 3 _ s (sampleRun_quiet _) hs).mpr (by decide)

/-- The first letter of a line arrives alone and is echoed as a line of its own. -/
theorem echo_piece :
    (∀ e ∈ sampleRun [0x61#8], e.Quiet) ∧
      ∃ s, runs step (.start 3) (sampleRun [0x61#8]) = some s ∧
        s.conns 4 = some ⟨[0x61#8], [], [0x41#8, lf], .again⟩ ∧ ¬ s.Echoes := by
  refine ⟨sampleRun_quiet _, ?_⟩
  have hrun : (runs step (.start 3) (sampleRun [0x61#8])).bind (fun s => s.conns 4) =
      some ⟨[0x61#8], [], [0x41#8, lf], .again⟩ := by decide
  obtain ⟨s, hs, hconn⟩ := Option.bind_eq_some_iff.mp hrun
  refine ⟨s, hs, hconn, ?_⟩
  intro he
  obtain ⟨j, -, hsent, -⟩ := he.conns 4 _ hconn
  have hlines : (splitLines lf [0x61#8]).1 = [] := by decide
  rw [hlines, List.take_nil] at hsent
  cases hsent

end TcpTests.Nbserver
