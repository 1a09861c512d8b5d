import TcpTests.Nbclient.Throttle
import TcpTests.Text.CleanCalls

/-! The messages that `nbclient` sends and the bytes that it reads. A message may be taken in part
only and is counted all the same, and the next one waits for bytes and not for a whole reply. -/
namespace TcpTests.Nbclient
open Lib Text

def Client.sends (c : Client) (turn : Turn) : Bool :=
  let p := c.poll [turn.headKey]
  decide (c.pc = .top) && p.2 && !p.1.settings.isPaused && !p.1.wait4Reply

def Client.comesToRead (os : Platform) (c : Client) (turn : Turn) : Bool :=
  let p := c.poll [turn.headKey]
  decide (c.pc = .top) && p.2 && !p.1.settings.isPaused && (p.1.send os turn).2

def SendResult.isSent : SendResult → Bool
  | .sent => true
  | .failed _ => false

def ReadResult.isData : ReadResult → Bool
  | .data => true
  | .again | .failed | .null _ _ => false

structure Message where
  tmr : Tm
  number : ℕ
  wlen : ℕ

def Message.data (m : Message) : List Byte := SimpClient.message (datetimeStg m.tmr) m.number

def Message.taken (m : Message) : List Byte := m.data.take m.wlen

/-- What a pass comes to, with the time in its message, the bytes that `send` takes of it, and
those that the read gets. -/
structure Pass where
  turn : Turn
  tmr : Tm
  wlen : ℕ
  rlen : ℕ

/-- The client with `out_count`, its messages, and all that it has read. After undefined behaviour
nothing follows. -/
structure NbClient where
  client : Client
  outCount : ℕ
  messages : List Message
  received : List Byte
  undefined : Bool

def NbClient.start : NbClient where
  client := .start
  outCount := 0
  messages := []
  received := []
  undefined := false

def NbClient.sent (c : NbClient) : List Byte := c.messages.flatMap Message.taken

def NbClient.message (c : NbClient) (p : Pass) : List Message :=
  if c.client.sends p.turn && p.turn.send.isSent then [⟨p.tmr, c.outCount + 1, p.wlen⟩] else []

def NbClient.getsData (os : Platform) (c : NbClient) (p : Pass) : Bool :=
  c.client.comesToRead os p.turn && p.turn.read.isData

/-- What a pass reads of the bytes that are there. -/
def NbClient.recv (os : Platform) (c : NbClient) (pending : List Byte) (p : Pass) : List Byte :=
  if c.getsData os p then pending.take p.rlen else []

/-- The state after a pass. What was read is rendered into `m_data`. -/
def NbClient.passed (os : Platform) (c : NbClient) (pending : List Byte) (p : Pass)
    (client : Client) : NbClient where
  client := client
  outCount := if c.client.sends p.turn then c.outCount + 1 else c.outCount
  messages := c.messages ++ c.message p
  received := c.received ++ c.recv os pending p
  undefined := decide ¬ CleanFits sizeofData (c.recv os pending p)

/-- A pass, or a round of the sleep. `out_count` is an `int`. -/
def NbClient.step (os : Platform) (c : NbClient) (pending : List Byte) (p : Pass) :
    Option NbClient :=
  if c.undefined then none
  else if c.client.sends p.turn ∧ 2 ^ 31 ≤ c.outCount + 1 then some { c with undefined := true }
  else if c.getsData os p ∧
      ¬ (0 < p.rlen ∧ p.rlen ≤ SimpClient.maxStr ∧ p.rlen ≤ pending.length) then none
  else (Nbclient.step os c.client p.turn).map (c.passed os pending p)

/-- The reads that let the client send again: those of data, and the reports from the third on. -/
def Client.released (c : Client) : ℕ :=
  c.reads.countP (·.result.isData) + (c.nulReadCnt - (writeAfter - 1))

def Client.allowance (c : Client) : ℕ :=
  c.released + if c.wait4Reply = true ∨ c.pc = .done then 1 else 0

section
variable {os : Platform} {c c' : Client} {turn : Turn} {r : Read}

theorem poll_wait4Reply (c : Client) (keys : List Char) :
    (c.poll keys).1.wait4Reply = c.wait4Reply := by
  unfold Client.poll
  dsimp only
  split_ifs <;> rfl

theorem poll_pc (c : Client) (keys : List Char) :
    (c.poll keys).1.pc = if (c.poll keys).2 = true then c.pc else .done := by
  unfold Client.poll
  dsimp only
  by_cases hexit : (checkKeys c.settings keys).2 = true
  · rw [if_pos hexit]
    rfl
  · rw [if_neg hexit]
    rfl

theorem Client.SameReads.released (h : c.SameReads c') : c'.released = c.released := by
  unfold Client.released
  rw [h.reads, h.nulReadCnt]

theorem allowance_mono (hreleased : c.released ≤ c'.released)
    (hwait : c.wait4Reply = true → c'.wait4Reply = true)
    (hpc : c.pc = .done → c'.pc = .done) : c.allowance ≤ c'.allowance := by
  unfold Client.allowance
  split_ifs with hold hnew
  · omega
  · exact absurd (hold.imp hwait hpc) hnew
  · omega
  · omega

theorem allowance_release (hreleased : c.released + 1 ≤ c'.released) :
    c.allowance ≤ c'.allowance := by
  unfold Client.allowance
  split_ifs <;> omega

theorem allowance_busy (hbusy : c.wait4Reply = true ∨ c.pc = .done) :
    c.allowance = c.released + 1 := by
  unfold Client.allowance
  rw [if_pos hbusy]

theorem poll_allowance (c : Client) (keys : List Char) :
    c.allowance ≤ (c.poll keys).1.allowance := by
  refine allowance_mono (c.poll_same keys).released.ge ?_ ?_
  · intro hwait
    rw [poll_wait4Reply, hwait]
  · intro hpc
    rw [poll_pc, hpc, ite_self]

theorem send_pc (hgoes : (c.send os turn).2 = true) : (c.send os turn).1.pc = c.pc := by
  unfold Client.send at hgoes ⊢
  by_cases hwait : c.wait4Reply = true
  · rw [if_pos hwait]
  rw [if_neg hwait] at hgoes ⊢
  cases hsend : turn.send with
  | sent =>
    simp only [hsend] at hgoes ⊢
    by_cases hpoll : (c.poll [turn.sendKeys.1, turn.sendKeys.2.1]).2 = true
    · rw [if_pos hpoll]
      exact (poll_pc c _).trans (if_pos hpoll)
    · rw [if_neg hpoll] at hgoes
      exact absurd hgoes hpoll
  | failed fatal =>
    simp only [hsend] at hgoes
    split_ifs at hgoes

/-- A message more is sent only by a client that does not wait. -/
theorem send_allowance (os : Platform) (turn : Turn) (hpc : c.pc ≠ .done) :
    c.allowance + (if !c.wait4Reply && turn.send.isSent then 1 else 0) ≤
      (c.send os turn).1.allowance := by
  unfold Client.send
  by_cases hwait : c.wait4Reply = true
  · rw [if_pos hwait, hwait]
    exact le_rfl
  have hnow : c.allowance = c.released := by
    unfold Client.allowance
    rw [if_neg (not_or.mpr ⟨hwait, hpc⟩), Nat.add_zero]
  rw [if_neg hwait, hnow]
  cases turn.send with
  | sent =>
    have hp := (c.poll_same [turn.sendKeys.1, turn.sendKeys.2.1]).released
    have hone : (if !c.wait4Reply && SendResult.sent.isSent then 1 else 0) ≤ 1 := by
      split_ifs
      · exact le_rfl
      · exact zero_le_one
    dsimp only
    by_cases hpoll : (c.poll [turn.sendKeys.1, turn.sendKeys.2.1]).2 = true
    · rw [if_pos hpoll, allowance_busy (Or.inl rfl), ← hp]
      exact Nat.add_le_add_left hone _
    · have hdone : (c.poll [turn.sendKeys.1, turn.sendKeys.2.1]).1.pc = .done := by
        rw [poll_pc, if_neg hpoll]
      rw [if_neg hpoll, allowance_busy (Or.inr hdone), hp]
      exact Nat.add_le_add_left hone _
  | failed fatal =>
    have hnone : (if !c.wait4Reply && (SendResult.failed fatal).isSent then 1 else 0) = 0 := by
      rw [SendResult.isSent, Bool.and_false]
      rfl
    rw [hnone, Nat.add_zero, ← hnow]
    dsimp only
    split_ifs
    · exact allowance_mono le_rfl (fun h => h) (fun _ => rfl)
    · exact poll_allowance { c with sendErrors := c.sendErrors + 1 } _

theorem allowance_concat (hreads : c'.reads = c.reads ++ [r])
    (hcount : c'.nulReadCnt = c.nulReadCnt) (hwait : c'.wait4Reply = c.wait4Reply)
    (hpc : c.pc = .done → c'.pc = .done) : c.allowance ≤ c'.allowance := by
  refine allowance_mono ?_ (fun h => hwait.trans h) hpc
  unfold Client.released
  rw [hreads, hcount, List.countP_append]
  omega

/-- A read of data, or a report from the third on, makes up for the wait that it ends. -/
theorem read_allowance (turn : Turn) (hpc : c.pc ≠ .done) :
    c.allowance ≤ (c.read turn).allowance := by
  unfold Client.read
  cases turn.read with
  | again => exact allowance_concat (r := ⟨c.lastRead, .again, false⟩) rfl rfl rfl (fun h => h)
  | failed =>
    dsimp only
    split_ifs
    · exact allowance_concat (r := ⟨c.lastRead, .failed, false⟩) rfl rfl rfl (fun _ => rfl)
    · exact allowance_concat (r := ⟨c.lastRead, .failed, false⟩) rfl rfl rfl
        (fun h => absurd h hpc)
  | null now stored =>
    dsimp only
    by_cases hdue : c.lastRead = 0 ∨ readMsgTime < now - c.lastRead
    · rw [if_pos hdue]
      by_cases hthird : writeAfter ≤ c.nulReadCnt + 1
      · refine allowance_release ?_
        unfold Client.released
        simp only [List.countP_append, writeAfter] at hthird ⊢
        omega
      · refine allowance_mono ?_ ?_ (fun h => h)
        · unfold Client.released
          simp only [List.countP_append]
          omega
        · intro hwait
          rw [if_neg hthird, hwait]
    · rw [if_neg hdue]
      refine le_trans ?_ (poll_allowance _ _)
      exact allowance_concat (r := ⟨c.lastRead, .null now stored, false⟩) rfl rfl rfl
        (fun h => h)
  | data =>
    dsimp only
    refine le_trans (allowance_release ?_) (poll_allowance _ _)
    unfold Client.released
    rw [List.countP_append, List.countP_singleton]
    simp only [ReadResult.isData, if_true]
    omega

/-- A pass that does not come to `send`, or a round of the sleep. -/
structure Client.Idles (os : Platform) (c : Client) (turn : Turn) (c' : Client) : Prop where
  running : c.pc ≠ .done
  reads : c.SameReads c'
  wait4Reply : c'.wait4Reply = c.wait4Reply
  sends : c.sends turn = false
  comesToRead : c.comesToRead os turn = false

structure Client.Works (os : Platform) (c : Client) (turn : Turn) (p c' : Client) : Prop where
  polled : p = (c.poll [turn.headKey]).1
  pc : p.pc = .top
  sends : c.sends turn = !p.wait4Reply
  comesToRead : c.comesToRead os turn = (p.send os turn).2
  result : c' = if (p.send os turn).2 then (p.send os turn).1.read turn else (p.send os turn).1

theorem pass_cases (hpc : c.pc = .top) :
    c.Idles os turn (c.pass os turn) ∨ ∃ p, c.Works os turn p (c.pass os turn) := by
  have hrunning : c.pc ≠ .done := by
    rw [hpc]
    nofun
  have hwait := poll_wait4Reply c [turn.headKey]
  by_cases hgoes : (c.poll [turn.headKey]).2 = true
  · by_cases hpaused : (c.poll [turn.headKey]).1.settings.isPaused = true
    · left
      have hpass : c.pass os turn = (c.poll [turn.headKey]).1 := by
        simp only [Client.pass, hgoes, hpaused, Bool.not_true, Bool.false_eq_true, if_false,
          if_true]
      rw [hpass]
      refine ⟨hrunning, c.poll_same _, hwait, ?_, ?_⟩
      · simp only [Client.sends, hpaused, Bool.not_true, Bool.and_false, Bool.false_and]
      · simp only [Client.comesToRead, hpaused, Bool.not_true, Bool.and_false, Bool.false_and]
    · right
      refine ⟨(c.poll [turn.headKey]).1, rfl, ?_, ?_, ?_, ?_⟩
      · rw [poll_pc, if_pos hgoes, hpc]
      · simp only [Client.sends, hpc, hgoes, hpaused, decide_true, Bool.not_false, Bool.true_and]
      · simp only [Client.comesToRead, hpc, hgoes, hpaused, decide_true, Bool.not_false,
          Bool.true_and]
      · simp only [Client.pass, hgoes, hpaused, Bool.not_true, Bool.false_eq_true, if_false]
  · left
    have hpass : c.pass os turn = (c.poll [turn.headKey]).1 := by
      simp only [Client.pass, hgoes, Bool.not_false, if_true]
    rw [hpass]
    refine ⟨hrunning, c.poll_same _, hwait, ?_, ?_⟩
    · simp only [Client.sends, hgoes, Bool.and_false, Bool.false_and]
    · simp only [Client.comesToRead, hgoes, Bool.and_false, Bool.false_and]

theorem sleep_idles {msecs : ℤ} (hpc : c.pc = .sleep msecs) :
    c.Idles os turn (c.sleep msecs turn) := by
  have hp := c.poll_same [turn.headKey]
  have hwait := poll_wait4Reply c [turn.headKey]
  have hsends : c.sends turn = false := by simp [Client.sends, hpc]
  have hreads : c.comesToRead os turn = false := by simp [Client.comesToRead, hpc]
  have hrunning : c.pc ≠ .done := by
    rw [hpc]
    nofun
  unfold Client.sleep
  dsimp only
  split_ifs
  · exact ⟨hrunning, ⟨rfl, rfl, rfl⟩, rfl, hsends, hreads⟩
  · exact ⟨hrunning, hp, hwait, hsends, hreads⟩
  · exact ⟨hrunning, ⟨hp.lastRead, hp.nulReadCnt, hp.reads⟩, hwait, hsends, hreads⟩
  · exact ⟨hrunning, ⟨hp.lastRead, hp.nulReadCnt, hp.reads⟩, hwait, hsends, hreads⟩

theorem step_cases (h : step os c turn = some c') :
    c.Idles os turn c' ∨ ∃ p, c.Works os turn p c' := by
  cases hpc : c.pc with
  | top =>
    simp only [step, hpc] at h
    cases h
    exact pass_cases hpc
  | sleep msecs =>
    simp only [step, hpc] at h
    cases h
    exact Or.inl (sleep_idles hpc)
  | done =>
    simp only [step, hpc] at h
    cases h

theorem step_allowance (h : step os c turn = some c') :
    c.allowance + (if c.sends turn && turn.send.isSent then 1 else 0) ≤ c'.allowance := by
  rcases step_cases h with hidle | ⟨p, hworks⟩
  · rw [hidle.sends]
    exact allowance_mono hidle.reads.released.ge (fun h => hidle.wait4Reply.trans h)
      (fun h => absurd h hidle.running)
  · have hnot : p.pc ≠ .done := by
      rw [hworks.pc]
      nofun
    have hpoll : c.allowance ≤ p.allowance := by
      rw [hworks.polled]
      exact poll_allowance c _
    have hsend := send_allowance os turn hnot
    rw [hworks.sends, hworks.result]
    by_cases hgoes : (p.send os turn).2 = true
    · have hread := read_allowance (c := (p.send os turn).1) turn
        (by rw [send_pc hgoes]; exact hnot)
      rw [if_pos hgoes]
      omega
    · rw [if_neg hgoes]
      omega

theorem read_reads (c : Client) (turn : Turn) :
    ∃ reported, (c.read turn).reads = c.reads ++ [⟨c.lastRead, turn.read, reported⟩] := by
  unfold Client.read
  cases turn.read with
  | again => exact ⟨false, rfl⟩
  | failed =>
    refine ⟨false, ?_⟩
    dsimp only
    split_ifs <;> rfl
  | null now stored =>
    dsimp only
    by_cases hdue : c.lastRead = 0 ∨ readMsgTime < now - c.lastRead
    · rw [if_pos hdue]
      exact ⟨true, rfl⟩
    · rw [if_neg hdue]
      exact ⟨false, (Client.poll_same _ _).reads⟩
  | data => exact ⟨false, (Client.poll_same _ _).reads⟩

theorem step_data (h : step os c turn = some c') : c'.reads.countP (·.result.isData) =
    c.reads.countP (·.result.isData) +
      if c.comesToRead os turn && turn.read.isData then 1 else 0 := by
  rcases step_cases h with hidle | ⟨p, hworks⟩
  · rw [hidle.reads.reads, hidle.comesToRead]
    rfl
  · have hreads : (p.send os turn).1.reads = c.reads := by
      rw [(p.send_same os turn).reads, hworks.polled, (c.poll_same _).reads]
    rw [hworks.comesToRead, hworks.result]
    by_cases hgoes : (p.send os turn).2 = true
    · obtain ⟨reported, hread⟩ := read_reads (p.send os turn).1 turn
      rw [if_pos hgoes, hgoes, hread, hreads, List.countP_append, List.countP_singleton,
        Bool.true_and]
    · rw [if_neg hgoes, hreads, Bool.eq_false_iff.mpr hgoes]
      rfl

end

/-- What a client has sent and read, and how far it is ahead. -/
structure NbClient.Inv (c : NbClient) : Prop where
  isInt : c.outCount < 2 ^ 31
  numbered : ∀ m ∈ c.messages, 0 < m.number ∧ m.number ≤ c.outCount
  ordered : c.messages.Pairwise (·.number < ·.number)
  allowed : c.messages.length ≤ c.client.allowance
  data : c.client.reads.countP (·.result.isData) ≤ c.received.length

section
variable {os : Platform} {c c' : NbClient} {pending : List Byte} {p : Pass}

theorem NbClient.step_cases (h : c.step os pending p = some c') :
    c.undefined = false ∧ (c' = { c with undefined := true } ∨
      (c.client.sends p.turn = true → c.outCount + 1 < 2 ^ 31) ∧
      (c.getsData os p = true → 0 < p.rlen ∧ p.rlen ≤ pending.length) ∧
      ∃ client, Nbclient.step os c.client p.turn = some client ∧
        c' = c.passed os pending p client) := by
  unfold NbClient.step at h
  split_ifs at h with hundefined hover hread
  · cases h
    exact ⟨Bool.eq_false_iff.mpr hundefined, Or.inl rfl⟩
  · obtain ⟨client, hclient, rfl⟩ := Option.map_eq_some_iff.mp h
    refine ⟨Bool.eq_false_iff.mpr hundefined, Or.inr ⟨?_, ?_, client, hclient, rfl⟩⟩
    · intro hsends
      exact Nat.lt_of_not_le fun hle => hover ⟨hsends, hle⟩
    · intro hdata
      have hlen := not_not.mp fun hno => hread ⟨hdata, hno⟩
      exact ⟨hlen.1, hlen.2.2⟩

theorem NbClient.message_eq (c : NbClient) (p : Pass) : c.message p = [] ∨
    c.client.sends p.turn = true ∧ c.message p = [⟨p.tmr, c.outCount + 1, p.wlen⟩] := by
  unfold NbClient.message
  split_ifs with hsends
  · exact Or.inr ⟨(Bool.and_eq_true_iff.mp hsends).1, rfl⟩
  · exact Or.inl rfl

theorem NbClient.message_length (c : NbClient) (p : Pass) :
    (c.message p).length = if c.client.sends p.turn && p.turn.send.isSent then 1 else 0 := by
  unfold NbClient.message
  split_ifs <;> rfl

theorem NbClient.recv_length
    (hdata : c.getsData os p = true → 0 < p.rlen ∧ p.rlen ≤ pending.length) :
    (if c.getsData os p then 1 else 0) ≤ (c.recv os pending p).length := by
  unfold NbClient.recv
  split_ifs with hgets
  · rw [List.length_take_of_le (hdata hgets).2]
    exact (hdata hgets).1
  · exact Nat.zero_le _

theorem NbClient.message_numbered {m : Message} (hm : m ∈ c.message p) :
    c.client.sends p.turn = true ∧ m.number = c.outCount + 1 := by
  rcases c.message_eq p with hnone | ⟨hsends, hone⟩
  · rw [hnone] at hm
    cases hm
  · rw [hone] at hm
    rw [List.mem_singleton.mp hm]
    exact ⟨hsends, rfl⟩

theorem NbClient.message_pairwise (c : NbClient) (p : Pass) :
    (c.message p).Pairwise (·.number < ·.number) := by
  rcases c.message_eq p with hnone | ⟨-, hone⟩
  · rw [hnone]
    exact List.Pairwise.nil
  · rw [hone]
    exact List.pairwise_singleton _ _

theorem NbClient.passed_inv (hc : c.Inv) {client : Client}
    (hover : c.client.sends p.turn = true → c.outCount + 1 < 2 ^ 31)
    (hdata : c.getsData os p = true → 0 < p.rlen ∧ p.rlen ≤ pending.length)
    (hclient : Nbclient.step os c.client p.turn = some client) :
    (c.passed os pending p client).Inv := by
  refine ⟨?_, ?_, ?_, ?_, ?_⟩
  · unfold NbClient.passed
    dsimp only
    split_ifs with hsends
    · exact hover hsends
    · exact hc.isInt
  · intro m hm
    unfold NbClient.passed
    dsimp only
    rcases List.mem_append.mp hm with hm | hm
    · refine ⟨(hc.numbered m hm).1, (hc.numbered m hm).2.trans ?_⟩
      split_ifs
      · exact Nat.le_succ _
      · exact le_rfl
    · obtain ⟨hsends, hnumber⟩ := NbClient.message_numbered hm
      rw [hnumber, if_pos hsends]
      exact ⟨Nat.succ_pos _, le_rfl⟩
  · refine List.pairwise_append.mpr ⟨hc.ordered, c.message_pairwise p, ?_⟩
    intro m hm m' hm'
    rw [(NbClient.message_numbered hm').2]
    exact Nat.lt_succ_of_le (hc.numbered m hm).2
  · have hstep := step_allowance hclient
    have hallowed := hc.allowed
    have hone := c.message_length p
    change (c.messages ++ c.message p).length ≤ client.allowance
    rw [List.length_append]
    omega
  · have hgets := NbClient.recv_length hdata
    have hold := hc.data
    unfold NbClient.getsData at hgets
    change client.reads.countP (·.result.isData) ≤ (c.received ++ c.recv os pending p).length
    rw [step_data hclient, List.length_append]
    omega

theorem NbClient.step_inv (hc : c.Inv) (h : c.step os pending p = some c') : c'.Inv := by
  obtain ⟨-, rfl | ⟨hover, hdata, client, hclient, rfl⟩⟩ := NbClient.step_cases h
  · exact ⟨hc.isInt, hc.numbered, hc.ordered, hc.allowed, hc.data⟩
  · exact NbClient.passed_inv hc hover hdata hclient

theorem NbClient.start_inv : NbClient.start.Inv :=
  ⟨by decide, nofun, List.Pairwise.nil, Nat.zero_le _, Nat.zero_le _⟩

/-- A message more is sent for a byte that was read, or for a report from the third on. -/
theorem NbClient.Inv.messages_le (hc : c.Inv) : c.messages.length ≤
    c.received.length + (c.client.nulReadCnt - (writeAfter - 1)) + 1 := by
  have hallowed := hc.allowed
  have hdata := hc.data
  have hone : c.client.allowance ≤ c.client.released + 1 := by
    unfold Client.allowance
    split_ifs <;> omega
  unfold Client.released at hone
  omega

theorem NbClient.step_received (h : c.step os pending p = some c') :
    ∃ bytes, bytes <+: pending ∧ c'.received = c.received ++ bytes := by
  obtain ⟨-, rfl | ⟨-, -, client, -, rfl⟩⟩ := NbClient.step_cases h
  · exact ⟨[], List.nil_prefix, (List.append_nil _).symm⟩
  · refine ⟨c.recv os pending p, ?_, rfl⟩
    unfold NbClient.recv
    split_ifs
    · exact List.take_prefix _ _
    · exact List.nil_prefix

theorem NbClient.step_messages (h : c.step os pending p = some c') :
    c'.messages = c.messages ∨ c'.messages = c.messages ++ c.message p := by
  obtain ⟨-, rfl | ⟨-, -, client, -, rfl⟩⟩ := NbClient.step_cases h
  · exact Or.inl rfl
  · exact Or.inr rfl

theorem NbClient.step_sent (h : c.step os pending p = some c') : c.sent <+: c'.sent := by
  unfold NbClient.sent
  rcases NbClient.step_messages h with hsame | hmore
  · rw [hsame]
  · rw [hmore, List.flatMap_append]
    exact List.prefix_append _ _

end

end TcpTests.Nbclient
