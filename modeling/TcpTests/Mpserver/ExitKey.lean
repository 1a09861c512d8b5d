import TcpTests.Mpserver.Server

/-! The exit key of `mpserver`. After an invalid entry in a position message the `break` leaves the
switch and not the loop, and the server goes on to the next pass. -/
namespace TcpTests.Mpserver
open Lib Net Fgmp

/-- What a run does that the exit key ends: a call of `check_key` with its result, a call of
`recvfrom`, and a new client. -/
inductive Event
  | polled (exit : Bool)
  | recvfrom
  | added (callsign : List Byte)

/-- The calls of `check_key` in a sleep, by the keys pressed in its rounds. -/
def pollEvents (settings : Settings) : List Char → List Event
  | [] => []
  | chr :: chrs =>
    let k := checkKey settings chr
    .polled k.2 :: if k.2 then [] else pollEvents k.1 chrs

/-- The settings after the sleep, and whether it was left by the exit key. -/
def sleepKeys (settings : Settings) : List Char → Settings × Bool
  | [] => (settings, false)
  | chr :: chrs =>
    let k := checkKey settings chr
    if k.2 then k else sleepKeys k.1 chrs

/-- `run_udpserver` up to its loop. It sleeps if it cannot create the capture file. -/
def Server.startUp (settings : Settings) (fopened : Bool) (keys : List Char) : Server :=
  if fopened then .start settings fopened
  else
    let k := sleepKeys settings keys
    if k.2 then { Server.start k.1 fopened with iret := 1, running := false }
    else .start k.1 fopened

def startUpEvents (settings : Settings) (fopened : Bool) (keys : List Char) : List Event :=
  if fopened then [] else pollEvents settings keys

def Server.datagramEvents (h : Endian) (s : Server) (bytes : List Byte) (rejectKey : Char) :
    List Event :=
  match s.treatment h bytes with
  | .badMagic | .badVersion | .badLength => [.polled (checkKey s.settings rejectKey).2]
  | .posData iret _ callsign =>
    if iret ≠ 0 then [.polled (checkKey s.settings rejectKey).2]
    else if s.mMPMap.any (·.1 = callsign) then []
    else [.added callsign]
  | .chat | .obsolete | .unknown => []

def Server.events (h : Endian) (s : Server) (p : Pass) : List Event :=
  if !s.running then []
  else if (checkKey s.settings p.key).2 then [.polled true]
  else
    .polled false :: .recvfrom ::
      match p.recv with
      | .again | .failed => []
      | .datagram _ bytes => (s.key p.key).datagramEvents h bytes p.rejectKey

def trace (h : Endian) (settings : Settings) (fopened : Bool) (keys : List Char)
    (passes : List Pass) : List Event :=
  startUpEvents settings fopened keys ++
    outputs (pass h) (Server.events h) (.startUp settings fopened keys) passes

def Event.IsPolled : Event → Prop
  | .polled _ => True
  | .recvfrom | .added _ => False

/-- After a call of `check_key` that returns 1, there is no `recvfrom` and no new client. -/
def ExitsAtOnce (events : List Event) : Prop :=
  ∀ pre post, events = pre ++ .polled true :: post → ∀ e ∈ post, e.IsPolled

/-- The exit key is pressed where the server looks for it after an invalid entry. -/
def Server.MissesExit (h : Endian) (s : Server) (p : Pass) : Prop :=
  p.key ≠ '\x1b' ∧ p.rejectKey = '\x1b' ∧ ∃ clientaddr bytes iret properties callsign,
    p.recv = .datagram clientaddr bytes ∧
      s.treatment h bytes = .posData iret properties callsign ∧ iret ≠ 0

/-- Where the exit key is missed, the key at the head of the next pass is the exit key too. -/
def PressedAgain (h : Endian) (s : Server) (passes : List Pass) : Prop :=
  ∀ pre p q post t, passes = pre ++ p :: q :: post → runs (pass h) s pre = some t →
    t.MissesExit h p → q.key = '\x1b'

section
variable {es ds : List Event} {e : Event}

theorem exitsAtOnce_of_polled (h : ∀ e ∈ es, e.IsPolled) : ExitsAtOnce es := by
  intro pre post hes e he
  rw [hes] at h
  exact h e (List.mem_append_right _ (List.mem_cons_of_mem _ he))

theorem exitsAtOnce_append (he : .polled true ∉ ds) :
    ExitsAtOnce (ds ++ es) ↔ ExitsAtOnce es := by
  constructor
  · intro h pre post hes
    exact h (ds ++ pre) post (by rw [hes, List.append_assoc])
  · intro h pre post hsplit
    rcases List.append_eq_append_iff.mp hsplit with ⟨as, hpre, hes⟩ | ⟨as, hds, hpost⟩
    · exact h as post hes
    · cases as with
      | nil => exact h [] post hpost.symm
      | cons d as =>
        obtain ⟨rfl, -⟩ := List.cons.inj hpost
        exact absurd (hds ▸ List.mem_append_right _ List.mem_cons_self) he

theorem exitsAtOnce_exit (he : .polled true ∉ ds) :
    ExitsAtOnce (ds ++ .polled true :: es) ↔ ∀ e ∈ es, e.IsPolled := by
  rw [exitsAtOnce_append he]
  constructor
  · intro h
    exact h [] es rfl
  · intro h pre post hes
    cases pre with
    | nil =>
      cases hes
      exact h
    | cons d pre =>
      cases hes
      intro e hmem
      exact h e (List.mem_append_right _ (List.mem_cons_of_mem _ hmem))

end

section
variable {h : Endian} {s t u : Server} {p q : Pass} {ps : List Pass}

theorem checkKey_goes (settings : Settings) {chr : Char} (hchr : chr ≠ '\x1b') :
    (checkKey settings chr).2 = false := by
  rw [← Bool.not_eq_true, checkKey_exit]
  exact hchr

theorem pass_exit (hs : s.running = true) (hkey : p.key = '\x1b') :
    pass h s p = some { s with running := false } ∧ s.events h p = [.polled true] := by
  have hexit := (checkKey_exit s.settings p.key).mpr hkey
  unfold pass Server.events
  simp only [hs, hexit, Bool.not_true, Bool.false_eq_true, if_false, if_true, and_self]

theorem pass_goes (hs : s.running = true) (hkey : p.key ≠ '\x1b') :
    pass h s p = some
      (match p.recv with
      | .again => s.key p.key
      | .failed => { s.key p.key with iret := 1, running := false }
      | .datagram clientaddr bytes =>
        (s.key p.key).datagram h clientaddr bytes p.disk p.rejectKey) ∧
    s.events h p = .polled false :: .recvfrom ::
      (match p.recv with
      | .again | .failed => []
      | .datagram _ bytes => (s.key p.key).datagramEvents h bytes p.rejectKey) := by
  have hgoes := checkKey_goes s.settings hkey
  unfold pass Server.events
  simp only [hs, hgoes, Bool.not_true, Bool.false_eq_true, if_false, and_true]
  cases p.recv <;> rfl

/-- A datagram with a bad header: the exit key ends the loop. With an invalid entry it does not.
Any other datagram comes without a look at the keyboard. -/
theorem datagram_events (clientaddr : SockaddrIn) (bytes : List Byte) (disk : Disk)
    (rejectKey : Char) :
    (s.datagramEvents h bytes rejectKey = [.polled (checkKey s.settings rejectKey).2] ∧
        (s.datagram h clientaddr bytes disk rejectKey).running =
          !(checkKey s.settings rejectKey).2 ∧
        ∀ iret properties callsign,
          s.treatment h bytes ≠ .posData iret properties callsign) ∨
      (∃ iret properties callsign, s.treatment h bytes = .posData iret properties callsign ∧
        iret ≠ 0 ∧ (s.datagram h clientaddr bytes disk rejectKey).running = s.running ∧
        s.datagramEvents h bytes rejectKey = [.polled (checkKey s.settings rejectKey).2]) ∨
      (.polled true ∉ s.datagramEvents h bytes rejectKey ∧
        ∀ iret properties callsign, s.treatment h bytes = .posData iret properties callsign →
          iret = 0) := by
  have htreat : s.treatment h bytes = (treatMsg h (s.msgbuf.write 0 (received maxPacketSize bytes))
      (received maxPacketSize bytes).length).2 := rfl
  unfold Server.datagramEvents Server.datagram Server.receive
  dsimp only
  rw [htreat]
  generalize treatMsg h (s.msgbuf.write 0 (received maxPacketSize bytes))
    (received maxPacketSize bytes).length = r
  obtain ⟨m, treatment⟩ := r
  cases treatment with
  | badMagic => exact Or.inl ⟨rfl, rfl, nofun⟩
  | badVersion => exact Or.inl ⟨rfl, rfl, nofun⟩
  | badLength => exact Or.inl ⟨rfl, rfl, nofun⟩
  | chat => exact Or.inr (Or.inr ⟨List.not_mem_nil, nofun⟩)
  | obsolete => exact Or.inr (Or.inr ⟨List.not_mem_nil, nofun⟩)
  | unknown => exact Or.inr (Or.inr ⟨List.not_mem_nil, nofun⟩)
  | posData iret properties callsign =>
    by_cases hret : iret ≠ 0
    · right
      left
      dsimp only
      rw [if_pos hret, if_pos hret]
      exact ⟨iret, properties, callsign, rfl, hret, rfl, rfl⟩
    · right
      right
      dsimp only
      rw [if_neg hret]
      refine ⟨?_, ?_⟩
      · split_ifs
        · exact List.not_mem_nil
        · simp
      · rintro _ _ _ ⟨⟩
        exact not_not.mp hret

theorem pass_events (hs : s.running = true) (hp : pass h s p = some t) :
    (.polled true ∉ s.events h p ∧ ¬ s.MissesExit h p) ∨
      ∃ ds, .polled true ∉ ds ∧ s.events h p = ds ++ [.polled true] ∧
        ((t.running = false ∧ ¬ s.MissesExit h p) ∨ (t.running = true ∧ s.MissesExit h p)) := by
  by_cases hkey : p.key = '\x1b'
  · obtain ⟨hpass, hevents⟩ := pass_exit (h := h) hs hkey
    rw [hpass] at hp
    cases hp
    exact Or.inr ⟨[], List.not_mem_nil, hevents, Or.inl ⟨rfl, fun hm => hm.1 hkey⟩⟩
  obtain ⟨hpass, hevents⟩ := pass_goes (h := h) hs hkey
  rw [hpass] at hp
  rw [hevents]
  cases hrecv : p.recv with
  | again =>
    refine Or.inl ⟨by simp, ?_⟩
    rintro ⟨-, -, _, _, _, _, _, hd, -⟩
    rw [hrecv] at hd
    cases hd
  | failed =>
    refine Or.inl ⟨by simp, ?_⟩
    rintro ⟨-, -, _, _, _, _, _, hd, -⟩
    rw [hrecv] at hd
    cases hd
  | datagram clientaddr bytes =>
    rw [hrecv] at hp
    cases hp
    have hmisses : s.MissesExit h p → p.rejectKey = '\x1b' ∧ ∃ iret properties callsign,
        s.treatment h bytes = .posData iret properties callsign ∧ iret ≠ 0 := by
      rintro ⟨-, hreject, addr, bs, iret, properties, callsign, hd, htreat, hret⟩
      rw [hrecv] at hd
      cases hd
      exact ⟨hreject, iret, properties, callsign, htreat, hret⟩
    have hfirst : .polled true ∉ [Event.polled false, .recvfrom] := by simp
    rcases datagram_events (h := h) (s := s.key p.key) clientaddr bytes p.disk p.rejectKey with
      ⟨hev, hrun, hnot⟩ | ⟨iret, properties, callsign, htreat, hret, hrun, hev⟩ | ⟨hev, hnot⟩
    · have hno : ¬ s.MissesExit h p := by
        intro hm
        obtain ⟨-, iret, properties, callsign, htreat, -⟩ := hmisses hm
        exact hnot iret properties callsign htreat
      dsimp only
      rw [hev]
      cases hexit : (checkKey (s.key p.key).settings p.rejectKey).2 with
      | true =>
        rw [hexit] at hrun
        exact Or.inr ⟨_, hfirst, rfl, Or.inl ⟨hrun, hno⟩⟩
      | false => exact Or.inl ⟨by simp, hno⟩
    · dsimp only
      rw [hev]
      by_cases hreject : p.rejectKey = '\x1b'
      · have hexit := (checkKey_exit (s.key p.key).settings p.rejectKey).mpr hreject
        rw [hexit]
        exact Or.inr ⟨_, hfirst, rfl, Or.inr ⟨hrun.trans hs, hkey, hreject, clientaddr, bytes, iret,
          properties, callsign, hrecv, htreat, hret⟩⟩
      · rw [checkKey_goes _ hreject]
        exact Or.inl ⟨by simp, fun hm => hreject hm.2.1⟩
    · refine Or.inl ⟨?_, ?_⟩
      · simp only [List.mem_cons, reduceCtorEq, Event.polled.injEq, Bool.true_eq_false, false_or]
        exact hev
      · intro hm
        obtain ⟨-, iret, properties, callsign, htreat, hret⟩ := hmisses hm
        exact hret (hnot iret properties callsign htreat)

theorem runs_stopped (hs : s.running = false) (hr : runs (pass h) s ps = some t) : ps = [] := by
  cases ps with
  | nil => rfl
  | cons p ps =>
    obtain ⟨u, hu, -⟩ := runs_cons.mp hr
    unfold pass at hu
    rw [hs] at hu
    cases hu

theorem pressedAgain_cons (hp : pass h s p = some u) : PressedAgain h s (p :: ps) ↔
    (∀ q qs, ps = q :: qs → s.MissesExit h p → q.key = '\x1b') ∧ PressedAgain h u ps := by
  constructor
  · intro hall
    refine ⟨?_, ?_⟩
    · intro q qs hps hm
      exact hall [] p q qs s (by rw [hps]; rfl) rfl hm
    · intro pre p' q post t hps hr hm
      exact hall (p :: pre) p' q post t (by rw [hps]; rfl) (runs_cons.mpr ⟨u, hp, hr⟩) hm
  · rintro ⟨hhead, htail⟩ pre p' q post t hps hr hm
    cases pre with
    | nil =>
      cases hps
      cases hr
      exact hhead q post rfl hm
    | cons d pre =>
      cases hps
      obtain ⟨v, hv, hr⟩ := runs_cons.mp hr
      cases hp.symm.trans hv
      exact htail pre p' q post t rfl hr hm

theorem pressedAgain_nil : PressedAgain h s [] := by
  intro pre p q post t hps
  cases pre <;> cases hps

/-- While the loop goes on, the only run that does nothing but poll is that in which the next key
is the exit key. -/
theorem outputs_polled_iff (hs : s.running = true) (hr : runs (pass h) s ps = some t) :
    (∀ e ∈ outputs (pass h) (Server.events h) s ps, e.IsPolled) ↔
      ∀ q qs, ps = q :: qs → q.key = '\x1b' := by
  cases ps with
  | nil => exact iff_of_true nofun nofun
  | cons q qs =>
    obtain ⟨u, hu, hru⟩ := runs_cons.mp hr
    rw [outputs_cons hu]
    constructor
    · rintro hall _ _ ⟨⟩
      by_contra hkey
      obtain ⟨-, hevents⟩ := pass_goes (h := h) hs hkey
      refine hall .recvfrom (List.mem_append_left _ ?_)
      rw [hevents]
      exact List.mem_cons_of_mem _ List.mem_cons_self
    · intro hkey
      obtain ⟨hpass, hevents⟩ := pass_exit (h := h) hs (hkey q qs rfl)
      have hstopped : u.running = false := by
        rw [Option.some.inj (hu.symm.trans hpass)]
      rw [hevents, runs_stopped hstopped hru]
      intro e he
      rw [List.mem_singleton.mp he]
      trivial

theorem outputs_exitsAtOnce_iff (hr : runs (pass h) s ps = some t) :
    ExitsAtOnce (outputs (pass h) (Server.events h) s ps) ↔ PressedAgain h s ps := by
  induction ps generalizing s with
  | nil => exact iff_of_true (exitsAtOnce_of_polled nofun) pressedAgain_nil
  | cons p ps ih =>
    obtain ⟨u, hu, hru⟩ := runs_cons.mp hr
    have hs : s.running = true := by
      by_contra hno
      cases runs_stopped (Bool.not_eq_true _ ▸ hno) hr
    rw [outputs_cons hu, pressedAgain_cons hu, ← ih hru]
    rcases pass_events hs hu with ⟨hev, hno⟩ | ⟨ds, hds, hev, hend⟩
    · rw [exitsAtOnce_append hev]
      constructor
      · intro hrest
        exact ⟨fun _ _ _ hm => absurd hm hno, hrest⟩
      · rintro ⟨-, hrest⟩
        exact hrest
    · rw [hev, List.append_assoc, List.singleton_append, exitsAtOnce_exit hds]
      rcases hend with ⟨hstop, hno⟩ | ⟨hgoes, hm⟩
      · rw [runs_stopped hstop hru]
        exact iff_of_true nofun ⟨nofun, exitsAtOnce_of_polled nofun⟩
      · rw [outputs_polled_iff hgoes hru]
        constructor
        · intro hkey
          refine ⟨fun q qs hps _ => hkey q qs hps, exitsAtOnce_of_polled ?_⟩
          exact (outputs_polled_iff hgoes hru).mpr hkey
        · rintro ⟨hkey, -⟩ q qs hps
          exact hkey q qs hps hm

theorem pollEvents_split (settings : Settings) (keys : List Char) :
    ((sleepKeys settings keys).2 = false ∧ .polled true ∉ pollEvents settings keys) ∨
      ((sleepKeys settings keys).2 = true ∧ ∃ ds, .polled true ∉ ds ∧
        pollEvents settings keys = ds ++ [.polled true]) := by
  induction keys generalizing settings with
  | nil => exact Or.inl ⟨rfl, List.not_mem_nil⟩
  | cons chr chrs ih =>
    unfold sleepKeys pollEvents
    dsimp only
    cases hexit : (checkKey settings chr).2 with
    | true => exact Or.inr ⟨by simp [hexit], [], List.not_mem_nil, rfl⟩
    | false =>
      simp only [Bool.false_eq_true, if_false]
      rcases ih (checkKey settings chr).1 with ⟨hgoes, hno⟩ | ⟨hstop, ds, hds, hev⟩
      · exact Or.inl ⟨hgoes, by simp [hno]⟩
      · exact Or.inr ⟨hstop, .polled false :: ds, by simp [hds], by rw [hev]; rfl⟩

theorem startUp_events (settings : Settings) (fopened : Bool) (keys : List Char) :
    .polled true ∉ startUpEvents settings fopened keys ∨
      ((Server.startUp settings fopened keys).running = false ∧ ∃ ds, .polled true ∉ ds ∧
        startUpEvents settings fopened keys = ds ++ [.polled true]) := by
  unfold startUpEvents Server.startUp
  cases fopened with
  | true => exact Or.inl List.not_mem_nil
  | false =>
    simp only [Bool.false_eq_true, if_false]
    rcases pollEvents_split settings keys with ⟨-, hno⟩ | ⟨hstop, hev⟩
    · exact Or.inl hno
    · rw [if_pos hstop]
      exact Or.inr ⟨rfl, hev⟩

end

/-- In every run, the exit key takes effect at once at each of the polls just when it is pressed
again at the head of the loop after each invalid entry at which it was pressed. -/
theorem exitKey_atOnce_iff (h : Endian) (settings : Settings) (fopened : Bool) (keys : List Char)
    (passes : List Pass) (t : Server)
    (hr : runs (pass h) (.startUp settings fopened keys) passes = some t) :
    ExitsAtOnce (trace h settings fopened keys passes) ↔
      PressedAgain h (.startUp settings fopened keys) passes := by
  unfold trace
  rcases startUp_events settings fopened keys with hno | ⟨hstop, ds, hds, hev⟩
  · rw [exitsAtOnce_append hno, outputs_exitsAtOnce_iff hr]
  · rw [hev, List.append_assoc, List.singleton_append, exitsAtOnce_exit hds,
      runs_stopped hstop hr]
    exact iff_of_true nofun pressedAgain_nil

/-- A position message from `Hi` with one property, whose identifier is not in the table. -/
def unknownProperty : List Byte :=
  headerWire posDataId 236#32 ++ [72, 105] ++ List.replicate 210 0

/-- The exit key after the invalid entry, and then a pass without a datagram. -/
def missedPasses (key : Char) : List Pass :=
  [⟨'\x00', .datagram ⟨0#32, 0#16⟩ unknownProperty, ⟨0, 0⟩, '\x1b'⟩,
    ⟨key, .again, ⟨0, 0⟩, '\x00'⟩]

theorem unknownProperty_treatment :
    (Server.startUp ⟨0, false, 0⟩ true []).treatment .little unknownProperty =
      .posData 1 [] [72, 105] := by
  simp only [Server.treatment, treatMsg]
  rw [if_neg (by decide), if_neg (by decide), if_neg (by decide +kernel), if_neg (by decide),
    if_pos (by decide),
    processPosMsg_unknown (by decide +kernel) (by decide +kernel) (by decide +kernel)]
  decide +kernel

def missedServer : Server :=
  (Server.startUp ⟨0, false, 0⟩ true []).datagram .little ⟨0#32, 0#16⟩ unknownProperty ⟨0, 0⟩
    '\x1b'

theorem missedServer_running : missedServer.running = true := by
  have htreat := unknownProperty_treatment
  rcases datagram_events (h := .little) (s := .startUp ⟨0, false, 0⟩ true []) ⟨0#32, 0#16⟩
    unknownProperty ⟨0, 0⟩ '\x1b' with ⟨-, -, hnot⟩ | ⟨_, _, _, -, -, hrun, -⟩ | ⟨-, hzero⟩
  · exact absurd htreat (hnot 1 [] [72, 105])
  · exact hrun
  · exact absurd (hzero 1 [] [72, 105] htreat) one_ne_zero

theorem missedPasses_runs (key : Char) :
    ∃ t, runs (pass .little) (.startUp ⟨0, false, 0⟩ true []) (missedPasses key) = some t := by
  have hgoes : ∃ t, pass .little missedServer ⟨key, .again, ⟨0, 0⟩, '\x00'⟩ = some t := by
    by_cases hkey : key = '\x1b'
    · exact ⟨_, (pass_exit missedServer_running hkey).1⟩
    · exact ⟨_, (pass_goes missedServer_running hkey).1⟩
  obtain ⟨t, ht⟩ := hgoes
  exact ⟨t, runs_cons.mpr ⟨missedServer, rfl, runs_cons.mpr ⟨t, ht, rfl⟩⟩⟩

theorem missedPasses_pressedAgain (key : Char) :
    PressedAgain .little (.startUp ⟨0, false, 0⟩ true []) (missedPasses key) ↔ key = '\x1b' := by
  constructor
  · intro hall
    refine hall [] _ _ [] _ rfl rfl ⟨by decide, rfl, ?_⟩
    exact ⟨_, _, 1, [], [72, 105], rfl, unknownProperty_treatment, one_ne_zero⟩
  · intro hkey pre p q post t hps hr hm
    cases pre with
    | nil =>
      cases hps
      exact hkey
    | cons d pre =>
      have hlen := congrArg List.length hps
      simp only [missedPasses, List.length_cons, List.length_nil, List.length_append] at hlen
      omega

/-- With no other key the server goes on to its next `recvfrom`. -/
theorem exitKey_missed :
    ∃ t, runs (pass .little) (.startUp ⟨0, false, 0⟩ true []) (missedPasses '\x00') = some t ∧
      ¬ ExitsAtOnce (trace .little ⟨0, false, 0⟩ true [] (missedPasses '\x00')) := by
  obtain ⟨t, ht⟩ := missedPasses_runs '\x00'
  refine ⟨t, ht, ?_⟩
  -- with its capture file the server comes to the loop at once
  change ¬ ExitsAtOnce (outputs (pass .little) (Server.events .little)
    (.startUp ⟨0, false, 0⟩ true []) (missedPasses '\x00'))
  rw [outputs_exitsAtOnce_iff ht, missedPasses_pressedAgain]
  decide

theorem exitKey_atOnce_sample :
    ∃ t, runs (pass .little) (.startUp ⟨0, false, 0⟩ true []) (missedPasses '\x1b') = some t ∧
      ExitsAtOnce (trace .little ⟨0, false, 0⟩ true [] (missedPasses '\x1b')) := by
  obtain ⟨t, ht⟩ := missedPasses_runs '\x1b'
  exact ⟨t, ht, (exitKey_atOnce_iff .little _ _ _ _ t ht).mpr
    ((missedPasses_pressedAgain '\x1b').mpr rfl)⟩

end TcpTests.Mpserver
