import TcpTests.Lib.Lists
import TcpTests.Nbclient.Client

/-! The reports of reads of zero bytes in `nbclient`. `last_read` is the time of the last report
and, when it is 0, the sign that a report is due. A read that is too early for a report sets it
to 0, so that the next one is reported. -/
namespace TcpTests.Nbclient
open Lib

def Due (lastRead now : ℤ) : Prop := lastRead = 0 ∨ readMsgTime < now - lastRead

def ReadResult.IsNull (r : ReadResult) : Prop := ∃ now stored, r = .null now stored

def Read.clock (r : Read) : List ℤ :=
  match r.result with
  | .null now stored => [now, stored]
  | .again | .failed | .data => []

def Read.lastAfter (r : Read) : ℤ :=
  match r.result with
  | .null _ stored => if r.reported then stored else 0
  | .data => 0
  | .again | .failed => r.lastRead

/-- In each stretch of reads of zero bytes, a report is made more than `read_msg_time` after the
one before it. -/
def Throttled (reads : List Read) : Prop :=
  ∀ pre x mid y post now stored now' stored', reads = pre ++ x :: (mid ++ y :: post) →
    x.result = .null now stored → x.reported = true →
    y.result = .null now' stored' → y.reported = true →
    (∀ z ∈ mid, z.result.IsNull ∧ z.reported = false) → readMsgTime < stored' - stored

/-- In each stretch of reads of zero bytes, the second read after one at which a report is due
comes more than `read_msg_time` after it. (If the clock showed 0 there, the first.) -/
def SecondLate (reads : List Read) : Prop :=
  ∀ pre x mid y post now stored now' stored', reads = pre ++ x :: (mid ++ y :: post) →
    x.result = .null now stored → Due x.lastRead now →
    y.result = .null now' stored' → (∀ z ∈ mid, z.result.IsNull) →
    mid.length = (if stored = 0 then 0 else 1) → readMsgTime < stored' - stored

/-- The reads say what the code does with `last_read`. -/
structure Logged (lastRead : ℤ) (reads : List Read) : Prop where
  reported : ∀ r ∈ reads, ∀ now stored, r.result = .null now stored →
    (r.reported = true ↔ Due r.lastRead now)
  next : ∀ pre x y post, reads = pre ++ x :: y :: post → y.lastRead = x.lastAfter
  last : ∀ pre x, reads = pre ++ [x] → lastRead = x.lastAfter

section
variable {reads pre post mid : List Read} {x y r : Read} {now stored : ℤ}

theorem clock_le (hclock : (reads.flatMap Read.clock).Pairwise (· ≤ ·))
    (h : reads = pre ++ x :: post) (hy : y ∈ post) {a b : ℤ} (ha : a ∈ x.clock)
    (hb : b ∈ y.clock) : a ≤ b := by
  have hreads := (List.pairwise_flatMap.mp hclock).2
  rw [h] at hreads
  have hx := (List.pairwise_cons.mp (List.pairwise_append.mp hreads).2.1).1
  exact hx y hy a ha b hb

theorem now_le_stored (hclock : (reads.flatMap Read.clock).Pairwise (· ≤ ·)) (hr : r ∈ reads)
    (hnull : r.result = .null now stored) : now ≤ stored := by
  have hpair := (List.pairwise_flatMap.mp hclock).1 r hr
  unfold Read.clock at hpair
  rw [hnull] at hpair
  exact (List.pairwise_cons.mp hpair).1 stored List.mem_cons_self

theorem mem_clock (hnull : r.result = .null now stored) : now ∈ r.clock ∧ stored ∈ r.clock := by
  unfold Read.clock
  rw [hnull]
  exact ⟨List.mem_cons_self, List.mem_cons_of_mem _ List.mem_cons_self⟩

theorem Read.lastAfter_reported (hnull : r.result = .null now stored) (hr : r.reported = true) :
    r.lastAfter = stored := by
  unfold lastAfter
  rw [hnull]
  exact if_pos hr

theorem Read.lastAfter_skipped (hnull : r.result.IsNull) (hr : r.reported = false) :
    r.lastAfter = 0 := by
  obtain ⟨now, stored, hnull⟩ := hnull
  unfold lastAfter
  rw [hnull, hr]
  rfl

variable {lastRead : ℤ}

/-- After a report at time `stored`, the next read of zero bytes is reported if it is late enough,
and else the one after it is. -/
theorem Logged.second_reported (hl : Logged lastRead reads)
    (h : reads = pre ++ x :: (mid ++ y :: post)) {now' stored' : ℤ}
    (hx : x.result = .null now stored) (hxr : x.reported = true)
    (hy : y.result = .null now' stored') (hmid : ∀ z ∈ mid, z.result.IsNull ∧ z.reported = false)
    (hlen : mid ≠ [] ∨ stored = 0) : y.reported = true := by
  have hmem : y ∈ reads := by
    rw [h]
    simp
  apply (hl.reported y hmem now' stored' hy).mpr
  left
  rcases List.eq_nil_or_concat' mid with rfl | ⟨init, z, rfl⟩
  · have hzero : stored = 0 := hlen.resolve_left fun h => h rfl
    rw [hl.next pre x y post h, Read.lastAfter_reported hx hxr, hzero]
  · have hz := hmid z (List.mem_append_right _ List.mem_cons_self)
    have hsplit : reads = (pre ++ x :: init) ++ z :: y :: post := by
      rw [h]
      simp only [List.append_assoc, List.cons_append, List.nil_append]
    rw [hl.next _ z y post hsplit, Read.lastAfter_skipped hz.1 hz.2]

theorem Logged.late_next (hl : Logged lastRead reads) (h : reads = pre ++ x :: y :: post)
    {now' stored' : ℤ} (hx : x.result = .null now stored) (hxr : x.reported = true)
    (hy : y.result = .null now' stored') (hyr : y.reported = true) (hzero : stored ≠ 0) :
    readMsgTime < now' - stored := by
  have hmem : y ∈ reads := by
    rw [h]
    simp
  have hdue := (hl.reported y hmem now' stored' hy).mp hyr
  rw [hl.next pre x y post h, Read.lastAfter_reported hx hxr] at hdue
  exact hdue.resolve_left hzero

theorem Logged.secondLate_of_throttled (hl : Logged lastRead reads)
    (hclock : (reads.flatMap Read.clock).Pairwise (· ≤ ·)) (ht : Throttled reads) :
    SecondLate reads := by
  intro pre x mid y post now stored now' stored' h hx hdue hy hnull hlen
  have hxmem : x ∈ reads := by
    rw [h]
    simp
  have hxr := (hl.reported x hxmem now stored hx).mpr hdue
  by_cases hmid : ∀ z ∈ mid, z.reported = false
  · have hboth : ∀ z ∈ mid, z.result.IsNull ∧ z.reported = false :=
      fun z hz => ⟨hnull z hz, hmid z hz⟩
    have hone : mid ≠ [] ∨ stored = 0 := by
      by_cases hzero : stored = 0
      · exact Or.inr hzero
      · rw [if_neg hzero] at hlen
        exact Or.inl fun hnil => by rw [hnil] at hlen; cases hlen
    have hyr := hl.second_reported h hx hxr hy hboth hone
    exact ht pre x mid y post now stored now' stored' h hx hxr hy hyr hboth
  · -- The read between the two was reported, which is late enough.
    by_cases hzero : stored = 0
    · rw [if_pos hzero, List.length_eq_zero_iff] at hlen
      rw [hlen] at hmid
      exact absurd nofun hmid
    rw [if_neg hzero, List.length_eq_one_iff] at hlen
    obtain ⟨z, rfl⟩ := hlen
    obtain ⟨u, v, huv⟩ := hnull z List.mem_cons_self
    have hzr : z.reported = true := by
      by_contra hno
      exact hmid fun w hw => by rw [List.mem_singleton.mp hw]; exact Bool.not_eq_true _ ▸ hno
    have hlate := hl.late_next h hx hxr huv hzr hzero
    have hsplit : reads = (pre ++ [x]) ++ z :: (y :: post) := by
      rw [h]
      simp only [List.append_assoc, List.cons_append, List.nil_append]
    have hle := clock_le hclock hsplit List.mem_cons_self (mem_clock huv).1 (mem_clock hy).2
    omega

theorem Logged.throttled_of_secondLate (hl : Logged lastRead reads)
    (hclock : (reads.flatMap Read.clock).Pairwise (· ≤ ·)) (hs : SecondLate reads) :
    Throttled reads := by
  intro pre x mid y post now stored now' stored' h hx hxr hy hyr hmid
  have hxmem : x ∈ reads := by
    rw [h]
    simp
  have hdue := (hl.reported x hxmem now stored hx).mp hxr
  have hnull : ∀ z ∈ mid, z.result.IsNull := fun z hz => (hmid z hz).1
  cases mid with
  | nil =>
    by_cases hzero : stored = 0
    · have hlen : ([] : List Read).length = if stored = 0 then 0 else 1 := by
        rw [if_pos hzero]
        rfl
      exact hs pre x [] y post now stored now' stored' h hx hdue hy hnull hlen
    · have hlate := hl.late_next h hx hxr hy hyr hzero
      have hymem : y ∈ reads := by
        rw [h]
        simp
      have hle := now_le_stored hclock hymem hy
      omega
  | cons z mid =>
    have hz := hmid z List.mem_cons_self
    by_cases hzero : stored = 0
    · -- The clock showed 0, so the next read of zero bytes is reported.
      obtain ⟨u, v, huv⟩ := hz.1
      have hsplit : reads = pre ++ x :: ([] ++ z :: (mid ++ y :: post)) := h
      have hzr := hl.second_reported hsplit hx hxr huv nofun (Or.inr hzero)
      rw [hz.2] at hzr
      cases hzr
    cases mid with
    | nil =>
      have hlen : [z].length = if stored = 0 then 0 else 1 := by
        rw [if_neg hzero]
        rfl
      exact hs pre x [z] y post now stored now' stored' h hx hdue hy hnull hlen
    | cons w mid =>
      have hw := hmid w (List.mem_cons_of_mem _ List.mem_cons_self)
      obtain ⟨u, v, huv⟩ := hw.1
      have hsplit : reads = pre ++ x :: ([z] ++ w :: (mid ++ y :: post)) := h
      have hwr := hl.second_reported hsplit hx hxr huv
        (fun s hs => by rw [List.mem_singleton.mp hs]; exact hz) (Or.inl nofun)
      rw [hw.2] at hwr
      cases hwr

theorem throttled_iff_secondLate (hl : Logged lastRead reads)
    (hclock : (reads.flatMap Read.clock).Pairwise (· ≤ ·)) :
    Throttled reads ↔ SecondLate reads :=
  ⟨hl.secondLate_of_throttled hclock, hl.throttled_of_secondLate hclock⟩

theorem Logged.concat (hl : Logged lastRead reads) (hlast : x.lastRead = lastRead)
    (hx : ∀ now stored, x.result = .null now stored → (x.reported = true ↔ Due lastRead now)) :
    Logged x.lastAfter (reads ++ [x]) where
  reported r hr now stored hnull := by
    rcases List.mem_append.mp hr with hr | hr
    · exact hl.reported r hr now stored hnull
    · rw [List.mem_singleton.mp hr] at hnull ⊢
      rw [hlast]
      exact hx now stored hnull
  next pre y z post h := by
    rcases concat_eq_append_cons.mp h with ⟨hnil, -⟩ | ⟨init, hpost, hreads⟩
    · cases hnil
    · cases init with
      | nil =>
        cases hpost
        exact hlast.trans (hl.last pre y hreads)
      | cons w init =>
        cases hpost
        exact hl.next pre y z init hreads
  last pre y h := by
    obtain ⟨-, hxy⟩ := List.append_inj' h rfl
    rw [List.singleton_inj.mp hxy]

end

structure Client.SameReads (c c' : Client) : Prop where
  lastRead : c'.lastRead = c.lastRead
  nulReadCnt : c'.nulReadCnt = c.nulReadCnt
  reads : c'.reads = c.reads

structure Client.Recorded (c : Client) : Prop where
  logged : Logged c.lastRead c.reads
  nulReadCnt : c.nulReadCnt = c.reads.countP Read.reported

section
variable {os : Platform} {c c' : Client} {turn : Turn}

theorem Client.SameReads.trans {c'' : Client} (h : c.SameReads c') (h' : c'.SameReads c'') :
    c.SameReads c'' :=
  ⟨h'.lastRead.trans h.lastRead, h'.nulReadCnt.trans h.nulReadCnt, h'.reads.trans h.reads⟩

theorem Client.Recorded.same (hc : c.Recorded) (h : c.SameReads c') : c'.Recorded := by
  refine ⟨?_, ?_⟩
  · rw [h.lastRead, h.reads]
    exact hc.logged
  · rw [h.nulReadCnt, h.reads]
    exact hc.nulReadCnt

theorem Client.poll_same (c : Client) (keys : List Char) : c.SameReads (c.poll keys).1 := by
  unfold poll
  dsimp only
  split_ifs <;> exact ⟨rfl, rfl, rfl⟩

theorem Client.send_same (os : Platform) (c : Client) (turn : Turn) :
    c.SameReads (c.send os turn).1 := by
  unfold send
  by_cases hw : c.wait4Reply = true
  · rw [if_pos hw]
    exact ⟨rfl, rfl, rfl⟩
  rw [if_neg hw]
  cases turn.send with
  | sent =>
    have hp := c.poll_same [turn.sendKeys.1, turn.sendKeys.2.1]
    dsimp only
    split_ifs
    · exact ⟨hp.lastRead, hp.nulReadCnt, hp.reads⟩
    · exact hp
  | failed fatal =>
    have hp := Client.poll_same { c with sendErrors := c.sendErrors + 1 }
      [turn.sendKeys.1, turn.sendKeys.2.1, turn.sendKeys.2.2]
    dsimp only
    split_ifs
    · exact ⟨rfl, rfl, rfl⟩
    · exact ⟨hp.lastRead, hp.nulReadCnt, hp.reads⟩

theorem Client.Recorded.concat (hc : c.Recorded) {r : Read} (hlast : r.lastRead = c.lastRead)
    (hr : ∀ now stored, r.result = .null now stored → (r.reported = true ↔ Due c.lastRead now))
    (hlastRead : c'.lastRead = r.lastAfter) (hreads : c'.reads = c.reads ++ [r])
    (hcount : c'.nulReadCnt = c.nulReadCnt + if r.reported then 1 else 0) : c'.Recorded := by
  refine ⟨?_, ?_⟩
  · rw [hlastRead, hreads]
    exact hc.logged.concat hlast hr
  · rw [hcount, hreads, hc.nulReadCnt, List.countP_append, List.countP_singleton]

theorem Client.Recorded.read (hc : c.Recorded) (turn : Turn) : (c.read turn).Recorded := by
  unfold Client.read
  cases hresult : turn.read with
  | again => exact hc.concat (r := ⟨c.lastRead, .again, false⟩) rfl nofun rfl rfl rfl
  | failed =>
    dsimp only
    split_ifs
    · exact hc.concat (r := ⟨c.lastRead, .failed, false⟩) rfl nofun rfl rfl rfl
    · exact hc.concat (r := ⟨c.lastRead, .failed, false⟩) rfl nofun rfl rfl rfl
  | null now stored =>
    by_cases hdue : c.lastRead = 0 ∨ readMsgTime < now - c.lastRead
    · dsimp only
      rw [if_pos hdue]
      refine hc.concat (r := ⟨c.lastRead, .null now stored, true⟩) rfl ?_ rfl rfl rfl
      intro u v huv
      cases huv
      exact iff_of_true rfl hdue
    · dsimp only
      rw [if_neg hdue]
      have hp := Client.poll_same
        { c with recvErrors := 0, lastRead := 0, reads := c.reads ++
          [⟨c.lastRead, .null now stored, false⟩] } [turn.tailKey]
      refine hc.concat (r := ⟨c.lastRead, .null now stored, false⟩) rfl ?_ hp.lastRead hp.reads
        hp.nulReadCnt
      intro u v huv
      cases huv
      exact iff_of_false Bool.false_ne_true hdue
  | data =>
    have hp := Client.poll_same
      { c with wait4Reply := false, recvErrors := 0, lastRead := 0, reads := c.reads ++
        [⟨c.lastRead, .data, false⟩] } [turn.tailKey]
    exact hc.concat (r := ⟨c.lastRead, .data, false⟩) rfl nofun hp.lastRead hp.reads hp.nulReadCnt

theorem Client.Recorded.pass (hc : c.Recorded) (turn : Turn) : (c.pass os turn).Recorded := by
  have hp := hc.same (c.poll_same [turn.headKey])
  have hs := hp.same (Client.send_same os (c.poll [turn.headKey]).1 turn)
  unfold Client.pass
  dsimp only
  split_ifs
  · exact hp
  · exact hp
  · exact hs.read turn
  · exact hs

theorem Client.Recorded.sleep (hc : c.Recorded) (msecs : ℤ) (turn : Turn) :
    (c.sleep msecs turn).Recorded := by
  have hp := hc.same (c.poll_same [turn.headKey])
  unfold Client.sleep
  dsimp only
  split_ifs
  · exact ⟨hc.logged, hc.nulReadCnt⟩
  · exact hp
  · exact ⟨hp.logged, hp.nulReadCnt⟩
  · exact ⟨hp.logged, hp.nulReadCnt⟩

theorem step_recorded (hc : c.Recorded) (h : step os c turn = some c') : c'.Recorded := by
  unfold step at h
  split at h
  · cases h
    exact hc.pass turn
  · cases h
    exact hc.sleep _ turn
  · cases h

theorem Client.Recorded.start : Client.start.Recorded where
  logged := by
    refine ⟨nofun, ?_, ?_⟩
    · intro pre x y post h
      cases pre <;> cases h
    · intro pre x h
      cases pre <;> cases h
  nulReadCnt := rfl

theorem run_recorded {turns : List Turn} (hr : runs (step os) .start turns = some c) :
    c.Recorded :=
  runs_invariant Client.Recorded (fun _ _ _ hc h => step_recorded hc h) Client.Recorded.start hr

theorem run_nulReadCnt {turns : List Turn} (hr : runs (step os) .start turns = some c) :
    c.nulReadCnt = c.reads.countP Read.reported :=
  (run_recorded hr).nulReadCnt

end

/-- In a run with a clock that does not go back, the reports of each stretch of reads of zero bytes
are more than `read_msg_time` apart if and only if the second read after each at which a report is
due is that late. -/
theorem reports_throttled_iff (os : Platform) (turns : List Turn) (c : Client)
    (hr : runs (step os) .start turns = some c)
    (hclock : (c.reads.flatMap Read.clock).Pairwise (· ≤ ·)) :
    Throttled c.reads ↔ SecondLate c.reads :=
  throttled_iff_secondLate (run_recorded hr).logged hclock

/-- A pass without keys that reads zero bytes at the given time. -/
def nullTurn (now : ℤ) : Turn :=
  ⟨'\x00', ('\x00', '\x00', '\x00'), '\x00', .sent, .null now now⟩

/-- Three reads of zero bytes, one second apart. -/
theorem reports_not_throttled : ¬ ∀ c,
    runs (step .unix) .start [nullTurn 100, nullTurn 101, nullTurn 102] = some c →
      (c.reads.flatMap Read.clock).Pairwise (· ≤ ·) → Throttled c.reads := by
  intro hall
  have ht := hall _ rfl (by decide)
  have hlate := ht [] ⟨0, .null 100 100, true⟩ [⟨100, .null 101 101, false⟩]
    ⟨0, .null 102 102, true⟩ [] 100 100 102 102 rfl rfl rfl rfl rfl
    (fun z hz => by rw [List.mem_singleton.mp hz]; exact ⟨⟨101, 101, rfl⟩, rfl⟩)
  exact absurd hlate (by decide)

theorem reports_throttled_sample : ∃ c,
    runs (step .unix) .start [nullTurn 100, nullTurn 105, nullTurn 111] = some c ∧
      (Throttled c.reads ↔ SecondLate c.reads) :=
  ⟨_, rfl, reports_throttled_iff .unix [nullTurn 100, nullTurn 105, nullTurn 111] _ rfl
    (by decide)⟩

end TcpTests.Nbclient
