import TcpTests.Nbserver.Echo

/-! What `nbserver` sends on a connection, linefeeds apart, however the data comes in pieces,
whatever the writes take and whoever else is connected. -/
namespace TcpTests.Nbserver
open Lib Sockhelp Text

def text (bytes : List Byte) : List Byte := bytes.filter (· ≠ lf)

/-- A relation of texts that holds piece by piece. -/
structure Piecewise (R : List Byte → List Byte → Prop) : Prop where
  nil : R [] []
  append : ∀ {a b c d}, R a b → R c d → R (a ++ c) (b ++ d)

/-- What was read of the connection, in upper case, and what was sent on it. -/
def Conn.Copied (R : List Byte → List Byte → Prop) (c : Conn) : Prop :=
  ∃ got, c.arrived = got ++ c.pending ∧ R (text c.sent) ((text got).map toupper)

/-- The same but for a line without its end, of which the last read has taken all that was there when
it failed. -/
def Conn.CopiedBut (R : List Byte → List Byte → Prop) (c : Conn) : Prop :=
  ∃ cut, (cut = [] ∨ c.idle = .failed ∧ lf ∉ cut) ∧
    Conn.Copied R { c with pending := cut ++ c.pending }

/-- The open connections, and those that the server has closed. -/
structure NbServer.Copied (R : List Byte → List Byte → Prop) (s : NbServer) : Prop where
  conns : ∀ fd c, s.conns fd = some c → c.Copied R
  lost : ∀ c ∈ s.lost, c.CopiedBut R

/-- A step that reads finds no more of a line than the buffer takes, and its reply is accepted in
full. -/
def Roomy (s : NbServer) (e : Event) : Prop :=
  match e, s.pc with
  | .read outs, .read listnum =>
    ∀ c ∈ s.conns (s.connectlist listnum), c.line.length ≤ myMxRcv ∧
      ∃ n rest, outs = .accepted n :: rest ∧ myMxRcv + 1 ≤ n
  | _, _ => True

section
variable {R : List Byte → List Byte → Prop} {s t : NbServer} {c c' : Conn} {e : Event}
  {outs : List WriteOutcome} {bs cs : List Byte}

theorem piecewise_sublist : Piecewise List.Sublist := ⟨List.Sublist.refl _, List.Sublist.append⟩

theorem piecewise_eq : Piecewise (· = ·) := ⟨rfl, fun h h' => by rw [h, h']⟩

theorem text_append (bs cs : List Byte) : text (bs ++ cs) = text bs ++ text cs :=
  List.filter_append _ _

theorem text_of_notMem (h : lf ∉ bs) : text bs = bs :=
  List.filter_eq_self.mpr fun b hb => by simpa using fun he : b = lf => h (he ▸ hb)

theorem lf_notMem_line (c : Conn) : lf ∉ c.line := by
  intro hmem
  simpa using List.mem_takeWhile_imp hmem

theorem lf_notMem_toupper (h : lf ∉ bs) : lf ∉ bs.map toupper := by
  have hup : ∀ b : Byte, toupper b = lf → b = lf := by decide
  intro hmem
  obtain ⟨b, hb, hbl⟩ := List.mem_map.mp hmem
  exact h (hup b hbl ▸ hb)

theorem text_respond (h : lf ∉ bs) : text (respond bs) = bs.map toupper := by
  have hlf : text [lf] = [] := by decide
  rw [respond_eq h, text_append, hlf, List.append_nil, text_of_notMem (lf_notMem_toupper h)]

theorem sockWriteLoop_takes {count : ℕ} {r : List Byte × ℤ}
    (h : sockWriteLoop count bs outs = some r) : r.1 <+: bs := by
  fun_induction sockWriteLoop count bs outs generalizing r with
  | case1 => cases h; exact List.nil_prefix
  | case2 => cases h
  | case3 => cases h; exact List.nil_prefix
  | case4 b bs n outs hn ih =>
    obtain ⟨q, hq, rfl⟩ := Option.map_eq_some_iff.mp h
    have hpre := ih hq
    calc (b :: bs).take n ++ q.1 <+: (b :: bs).take n ++ (b :: bs).drop n :=
          (List.prefix_append_right_inj _).mpr hpre
      _ = b :: bs := List.take_append_drop n _
  | case5 b bs outs ih => exact ih h
  | case6 => cases h; exact List.nil_prefix

/-- What a read takes of the pending bytes: a line, with its linefeed if that is there. -/
theorem exists_sockGets (c : Conn) :
    ∃ got, c.pending = got ++ (sockGets c.idle myMxRcv c.pending).rest ∧ text got = c.line := by
  by_cases hmem : lf ∈ c.pending
  · obtain ⟨l, rest, hp, hlf⟩ := List.eq_append_cons_of_mem hmem
    have hlast : text [lf] = [] := by decide
    refine ⟨l ++ [lf], ?_, ?_⟩
    · rw [hp, sockGets_line hlf, List.append_assoc]
      rfl
    · rw [text_append, hlast, List.append_nil, text_of_notMem hlf, Conn.line, hp,
        takeWhile_line hlf]
  · have hall : c.line = c.pending := by
      refine List.takeWhile_eq_self_iff.mpr ?_
      intro b hb
      simpa using fun he : b = lf => hmem (he ▸ hb)
    refine ⟨c.pending, ?_, ?_⟩
    · rw [sockGets, sockGetsLoop_end c.idle hmem (Nat.zero_le _), List.append_nil]
    · rw [text_of_notMem hmem, hall]

theorem dealWithData_copied (hR : Piecewise R) (hc : c.Copied R)
    (hone : ∀ w, sockWrite (respond (c.line.take myMxRcv)) outs = some w →
      R (text w.1) (c.line.map toupper))
    (h : dealWithData c outs = some (.goesOn c')) : c'.Copied R := by
  obtain ⟨got, harrived, hcopied⟩ := hc
  obtain ⟨piece, hpending, hpiece⟩ := exists_sockGets c
  unfold dealWithData at h
  dsimp only at h
  rw [sockGets_str] at h
  split_ifs at h
  · cases h
  · obtain ⟨w, hw, hgoes⟩ := Option.map_eq_some_iff.mp h
    cases hgoes
    refine ⟨got ++ piece, ?_, ?_⟩
    · rw [List.append_assoc, ← hpending]
      exact harrived
    · rw [text_append, text_append, List.map_append, hpiece]
      exact hR.append hcopied (hone w hw)
  · obtain ⟨w, hw, hgoes⟩ := Option.map_eq_some_iff.mp h
    cases hgoes
  · cases h

theorem Conn.Copied.arrive (hc : c.Copied R) (bytes : List Byte) :
    Conn.Copied R { c with arrived := c.arrived ++ bytes, pending := c.pending ++ bytes } := by
  obtain ⟨got, harrived, hcopied⟩ := hc
  refine ⟨got, ?_, hcopied⟩
  change c.arrived ++ bytes = got ++ (c.pending ++ bytes)
  rw [harrived, List.append_assoc]

theorem Conn.Copied.but (hc : c.Copied R) : c.CopiedBut R := ⟨[], Or.inl rfl, hc⟩

theorem closes_cases (h : dealWithData c outs = some (.closes c')) :
    (sockGets c.idle myMxRcv c.pending).ret ≤ 0 ∧
      c' = { c with pending := (sockGets c.idle myMxRcv c.pending).rest } := by
  unfold dealWithData at h
  dsimp only at h
  split_ifs at h with hret
  · cases h
    exact ⟨hret, rfl⟩
  · obtain ⟨w, -, hcloses⟩ := Option.map_eq_some_iff.mp h
    cases hcloses
  · obtain ⟨w, -, hcloses⟩ := Option.map_eq_some_iff.mp h
    cases hcloses
  · cases h

/-- A read that closes has taken an empty line, or nothing, or it has failed. -/
theorem dealWithData_closes (hc : c.Copied R) (h : dealWithData c outs = some (.closes c')) :
    c'.CopiedBut R := by
  obtain ⟨hle, rfl⟩ := closes_cases h
  have hret := sockGets_ret c.idle myMxRcv c.pending
  by_cases hfailed : lf ∉ c.pending ∧ c.idle = .failed
  · refine ⟨c.pending, Or.inr ⟨hfailed.2, hfailed.1⟩, ?_⟩
    have hrest : (sockGets c.idle myMxRcv c.pending).rest = [] := by
      rw [sockGets, sockGetsLoop_end c.idle hfailed.1 (Nat.zero_le _)]
    dsimp only
    rw [hrest, List.append_nil]
    exact hc
  · obtain ⟨piece, hpending, hpiece⟩ := exists_sockGets c
    obtain ⟨got, harrived, hcopied⟩ := hc
    have hline : c.line = [] := by
      have hlen : (c.line.take myMxRcv).length = 0 := by
        rw [if_neg hfailed, sockGets_str] at hret
        unfold Conn.line
        omega
      rw [List.length_take, myMxRcv] at hlen
      exact List.length_eq_zero_iff.mp (by omega)
    refine ⟨[], Or.inl rfl, got ++ piece, ?_, ?_⟩
    · rw [List.append_assoc, List.nil_append, ← hpending]
      exact harrived
    · rw [text_append, hpiece, hline, List.append_nil]
      exact hcopied

theorem Conn.CopiedBut.sublist (hc : c.CopiedBut List.Sublist) : c.Copied List.Sublist := by
  obtain ⟨cut, -, got, harrived, hcopied⟩ := hc
  refine ⟨got ++ cut, ?_, ?_⟩
  · rw [List.append_assoc]
    exact harrived
  · rw [text_append, List.map_append]
    exact hcopied.trans (List.sublist_append_left _ _)

theorem NbServer.Copied.update {fd : ℕ} (hs : s.Copied R) (hc : c.Copied R)
    (hconns : t.conns = Function.update s.conns fd (some c)) (hlost : t.lost = s.lost) :
    t.Copied R := by
  constructor
  · rw [hconns]
    exact forall_update_some hs.conns hc
  · rw [hlost]
    exact hs.lost

theorem NbServer.Copied.same (hs : s.Copied R) (hconns : t.conns = s.conns)
    (hlost : t.lost = s.lost) : t.Copied R := by
  constructor
  · rw [hconns]
    exact hs.conns
  · rw [hlost]
    exact hs.lost

/-- What a step has to write, if it reads. -/
def Writes (R : List Byte → List Byte → Prop) (s : NbServer) (e : Event) : Prop :=
  ∀ outs listnum, e = .read outs → s.pc = .read listnum →
    ∀ c ∈ s.conns (s.connectlist listnum), ∀ w,
      sockWrite (respond (c.line.take myMxRcv)) outs = some w → R (text w.1) (c.line.map toupper)

theorem read_copied (hR : Piecewise R) (hs : s.Copied R) (hone : Writes R s (.read outs))
    (h : step s (.read outs) = some t) : t.Copied R := by
  obtain ⟨listnum, hpc, h⟩ := step_read h
  rcases readSlot_cases h with ⟨-, rfl⟩ | ⟨c, d, hfd, hmem, hc, hd, rfl⟩
  · exact hs.same rfl rfl
  · have hcopied := hs.conns _ c hc
    cases d with
    | goesOn c' =>
      exact hs.update (dealWithData_copied hR hcopied (hone outs listnum rfl hpc c hc) hd) rfl rfl
    | closes c' =>
      refine ⟨forall_update_none hs.conns, ?_⟩
      intro e he
      rcases List.mem_append.mp he with he | he
      · exact hs.lost e he
      · rw [List.mem_singleton.mp he]
        exact dealWithData_closes hcopied hd
    | undefined => exact hs.same rfl rfl

theorem step_copied (hR : Piecewise R) (hs : s.Copied R) (hone : Writes R s e)
    (h : step s e = some t) : t.Copied R := by
  by_cases hread : ∃ outs, e = .read outs
  · obtain ⟨outs, rfl⟩ := hread
    exact read_copied hR hs hone h
  · unfold step at h
    split at h
    · cases h
      exact hs.same rfl rfl
    · obtain ⟨c, hc, rfl⟩ := Option.map_eq_some_iff.mp h
      exact hs.update ((hs.conns _ c hc).arrive _) rfl rfl
    · obtain ⟨c, hc, rfl⟩ := Option.map_eq_some_iff.mp h
      rename_i idle
      have hends : Conn.Copied R { c with idle := idle } := hs.conns _ c hc
      exact hs.update hends rfl rfl
    · cases h
      exact hs.same rfl rfl
    · split_ifs at h
      cases h
      unfold NbServer.handleNewConnection
      dsimp only
      split
      · have hfresh : Conn.fresh.Copied R := ⟨[], rfl, hR.nil⟩
        exact hs.update hfresh rfl rfl
      · exact hs.same rfl rfl
    · exact absurd ⟨_, rfl⟩ hread
    · cases h
      exact hs.same rfl rfl
    · cases h
      exact hs.same rfl rfl
    · cases h
      exact hs.same rfl rfl
    · cases h

theorem NbServer.Copied.start (sock : ℕ) : (NbServer.start sock).Copied R := ⟨nofun, nofun⟩

theorem writes_sublist (s : NbServer) (e : Event) : Writes List.Sublist s e := by
  intro outs listnum _ _ c _ w hw
  have hno : lf ∉ c.line.take myMxRcv := fun hmem => lf_notMem_line c (List.mem_of_mem_take hmem)
  have hsub : (text w.1).Sublist (text (respond (c.line.take myMxRcv))) :=
    (sockWriteLoop_takes hw).sublist.filter _
  rw [text_respond hno] at hsub
  exact hsub.trans ((List.take_sublist _ _).map _)

theorem writes_eq (hroomy : Roomy s e) : Writes (· = ·) s e := by
  rintro outs listnum rfl hpc c hc w hw
  unfold Roomy at hroomy
  simp only [hpc] at hroomy
  obtain ⟨hlen, n, rest, rfl, hn⟩ := hroomy c hc
  have hwhole : c.line.take myMxRcv = c.line := List.take_of_length_le hlen
  rw [hwhole, respond_eq (lf_notMem_line c), sockWrite_accepted (by simp)] at hw
  · cases hw
    rw [← respond_eq (lf_notMem_line c), text_respond (lf_notMem_line c)]
  · rw [List.length_append, List.length_map, List.length_singleton]
    omega

end

/-- In every run, linefeeds apart, what was sent on a connection, open or closed, is a selection of
what was read of it, in upper case and in order. If no line is longer than the buffer and no write
is cut, it is all that was read of it, or for a closed one all but the line without its end that was
there when its last read failed. It does not matter where the data is cut into pieces. -/
theorem sent_content (sock : ℕ) (es : List Event) {s : NbServer}
    (h : runs step (.start sock) es = some s) :
    (∀ fd c, s.conns fd = some c → c.Copied List.Sublist) ∧
      (∀ c ∈ s.lost, c.Copied List.Sublist) ∧
      (AllSteps step Roomy (.start sock) es →
        (∀ fd c, s.conns fd = some c → c.Copied (· = ·)) ∧ ∀ c ∈ s.lost, c.CopiedBut (· = ·)) := by
  have hs : s.Copied List.Sublist :=
    runs_invariant (NbServer.Copied List.Sublist)
      (fun s e t hs ht => step_copied piecewise_sublist hs (writes_sublist s e) ht)
      (NbServer.Copied.start sock) h
  refine ⟨hs.conns, fun c hc => (hs.lost c hc).sublist, ?_⟩
  intro hroomy
  have hstep : ∀ s e t, NbServer.Copied (· = ·) s → Roomy s e → step s e = some t →
      t.Copied (· = ·) :=
    fun s e t hs he ht => step_copied piecewise_eq hs (writes_eq he) ht
  have hall : s.Copied (· = ·) := hroomy.invariant hstep (NbServer.Copied.start sock) h
  exact ⟨hall.conns, hall.lost⟩

/-- A letter without its linefeed, and then the connection is reset. -/
theorem sent_content_piece : ∃ s,
    runs step (.start 3) (sampleRun [0x61#8] ++
      [.checkKeys false, .arrive 4 [0x62#8], .ends 4 .failed, .select] ++ sampleReads) = some s ∧
      s.lost = [⟨[0x61#8, 0x62#8], [], [0x41#8, lf], .failed⟩] ∧
      ∀ c ∈ s.lost, c.Copied List.Sublist := by
  have hrun : (runs step (.start 3) (sampleRun [0x61#8] ++
      [.checkKeys false, .arrive 4 [0x62#8], .ends 4 .failed, .select] ++ sampleReads)).map
        (·.lost) = some [⟨[0x61#8, 0x62#8], [], [0x41#8, lf], .failed⟩] := by decide
  obtain ⟨s, hs, hlost⟩ := Option.map_eq_some_iff.mp hrun
  exact ⟨s, hs, hlost, (sent_content 3 _ hs).2.1⟩

end TcpTests.Nbserver
