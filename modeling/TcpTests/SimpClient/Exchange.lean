import TcpTests.SimpClient.Reconnect
import TcpTests.SimpServer.Receive
import TcpTests.Text.Datetime

/-! `simp_client` and `simp_server` on one connection: the steps of the client, the calls of
`handle_receive` of a server that echoes, and the bytes on their way between the two. The calls
succeed and no keys are pressed. -/
namespace TcpTests.SimpClient
open Lib Text

def lf : Byte := 10#8

def messages : List Happening → ℕ
  | [] => 0
  | .wrote _ :: log => messages log + 1
  | _ :: log => messages log

def written : List Happening → List Byte
  | [] => []
  | .wrote bytes :: log => written log ++ bytes
  | _ :: log => written log

def gotten : List Happening → List Byte
  | [] => []
  | .gotData bytes :: log => gotten log ++ bytes
  | _ :: log => gotten log

/-- The bytes `up` have not been received by the server and `down` not by the client.
`sendsDone` counts the replies of the server. -/
structure Exchange where
  client : Client
  conn : SimpServer.Conn
  sendsDone : ℕ
  up : List Byte
  down : List Byte

def Exchange.start (receiveOnly onceOnly : Bool) (secsToSleep : ℕ) (sd : ℤ) (serial : ℕ) :
    Exchange where
  client := .start receiveOnly onceOnly secsToSleep
  conn := .fresh sd serial
  sendsDone := 0
  up := []
  down := []

/-- The steps of the client that move no data, without errors and keys. -/
def Quiet : SimpClient.Event → Prop
  | .tick => True
  | .socket outcome => outcome.isSome = true
  | .connect connected keys => connected = true ∧ keys = []
  | .throttle _ keys => keys = []
  | .keys keys => keys = []
  | .write _ _ _ => False
  | .sent keys₁ keys₂ => keys₁ = [] ∧ keys₂ = []
  | .select .failed => False
  | .select _ => True
  | .recv .wouldBlock keys => keys = []
  | .recv _ _ => False

instance : ∀ e, Decidable (Quiet e)
  | .tick => inferInstanceAs (Decidable True)
  | .socket _ => inferInstanceAs (Decidable (_ = _))
  | .connect _ _ => inferInstanceAs (Decidable (_ ∧ _))
  | .throttle _ _ => inferInstanceAs (Decidable (_ = _))
  | .keys _ => inferInstanceAs (Decidable (_ = _))
  | .write _ _ _ => inferInstanceAs (Decidable False)
  | .sent _ _ => inferInstanceAs (Decidable (_ ∧ _))
  | .select .failed => inferInstanceAs (Decidable False)
  | .select .notReady | .select .ready => inferInstanceAs (Decidable True)
  | .recv .wouldBlock _ => inferInstanceAs (Decidable (_ = _))
  | .recv (.received _ _) _ | .recv .closed _ | .recv .failed _ =>
    inferInstanceAs (Decidable False)

/-- A quiet step of the client, a write that takes `n` bytes, and blocks of `n` bytes that either
side receives. Of its reply the server sends `m` bytes. -/
inductive Exchange.Event
  | quiet (e : SimpClient.Event)
  | write (tmr : Tm) (n : ℕ)
  | serve (n : ℕ) (tmr : Tm) (m : ℕ)
  | recv (n : ℕ)

def Exchange.quiet (s : Exchange) (e : SimpClient.Event) : Option Exchange :=
  if Quiet e then (SimpClient.step s.client e).map fun c => { s with client := c } else none

def Exchange.write (s : Exchange) (tmr : Tm) (n : ℕ) : Option Exchange :=
  (SimpClient.step s.client (.write (datetimeStg tmr) (.wrote n) [])).map fun c =>
    { s with
      client := c
      up := s.up ++ (message (datetimeStg tmr) (s.client.outCount + 1)).take n }

def reply (tmr : Tm) : List Byte := datetimeStg tmr ++ SimpServer.replyText

/-- `handle_receive` of the server, which replies to each block that it receives. -/
def Exchange.serve (s : Exchange) (n : ℕ) (tmr : Tm) (m : ℕ) : Option Exchange :=
  if h : (0 < (s.up.take n).length ∧ (s.up.take n).length ≤ SimpServer.maxStr) ∧
      n ≤ s.up.length ∧ m ≤ (reply tmr).length then
    some { s with
      conn := s.conn.handleReceive true
        ⟨.received (s.up.take n) h.1, datetimeStg tmr, .accepted m⟩
      sendsDone := s.sendsDone + 1
      up := s.up.drop n
      down := s.down ++ (reply tmr).take m }
  else none

def Exchange.recv (s : Exchange) (n : ℕ) : Option Exchange :=
  if h : (0 < (s.down.take n).length ∧ (s.down.take n).length ≤ maxStr) ∧ n ≤ s.down.length then
    (SimpClient.step s.client (.recv (.received (s.down.take n) h.1) [])).map fun c =>
      { s with client := c, down := s.down.drop n }
  else none

def Exchange.step (s : Exchange) : Exchange.Event → Option Exchange
  | .quiet e => s.quiet e
  | .write tmr n => s.write tmr n
  | .serve n tmr m => s.serve n tmr m
  | .recv n => s.recv n

section Client
variable {c d : Client} {keys : List Key}

theorem step_write {date : List Byte} {outcome : WriteOutcome}
    (h : SimpClient.step c (.write date outcome keys) = some d) :
    c.pc = .send ∧ c.sends = true ∧ c.write date keys outcome = some d := by
  cases hpc : c.pc with
  | send =>
    simp only [SimpClient.step, hpc] at h
    by_cases hsends : c.sends
    · rw [if_pos hsends] at h
      exact ⟨rfl, hsends, h⟩
    · rw [if_neg hsends] at h
      cases h
  | _ =>
    simp only [SimpClient.step, hpc] at h
    cases h

theorem step_recv {outcome : RecvOutcome}
    (h : SimpClient.step c (.recv outcome keys) = some d) :
    c.pc = .recv ∧ c.recv keys outcome = d := by
  cases hpc : c.pc with
  | recv =>
    simp only [SimpClient.step, hpc] at h
    exact ⟨rfl, Option.some.inj h⟩
  | _ =>
    simp only [SimpClient.step, hpc] at h
    cases h

end Client

section
variable {s t : Exchange} {n m : ℕ} {tmr : Tm}

theorem quiet_cases {e : SimpClient.Event} (h : s.quiet e = some t) :
    Quiet e ∧ ∃ c, SimpClient.step s.client e = some c ∧ t = { s with client := c } := by
  unfold Exchange.quiet at h
  by_cases he : Quiet e
  · rw [if_pos he] at h
    obtain ⟨c, hc, rfl⟩ := Option.map_eq_some_iff.mp h
    exact ⟨he, c, hc, rfl⟩
  · rw [if_neg he] at h
    cases h

theorem write_cases (h : s.write tmr n = some t) :
    s.client.pc = .send ∧ s.client.sends = true ∧
      t = { s with
        client := { s.client with
          outCount := s.client.outCount + 1
          log := .wrote ((message (datetimeStg tmr) (s.client.outCount + 1)).take n) ::
            s.client.log
          pc := .sent }
        up := s.up ++ (message (datetimeStg tmr) (s.client.outCount + 1)).take n } := by
  obtain ⟨c, hc, rfl⟩ := Option.map_eq_some_iff.mp h
  obtain ⟨hpc, hsends, hwrite⟩ := step_write hc
  simp only [Client.write] at hwrite
  split_ifs at hwrite
  cases hwrite
  exact ⟨hpc, hsends, rfl⟩

theorem serve_cases (h : s.serve n tmr m = some t) :
    t.client = s.client ∧ t.sendsDone = s.sendsDone + 1 ∧
      t.conn.received = s.conn.received ++ s.up.take n ∧
      t.conn.sent = s.conn.sent ++ (reply tmr).take m ∧
      t.up = s.up.drop n ∧ t.down = s.down ++ (reply tmr).take m := by
  unfold Exchange.serve at h
  split_ifs at h
  cases h
  exact ⟨rfl, rfl, rfl, rfl, rfl, rfl⟩

theorem recv_cases (h : s.recv n = some t) :
    s.client.pc = .recv ∧
      t = { s with
        client := { s.client with
          recvErrors := 0
          wait4Reply := false
          log := .gotData (s.down.take n) :: s.client.log
          pc := if s.client.onceOnly then .exited else .top }
        down := s.down.drop n } := by
  unfold Exchange.recv at h
  split_ifs at h with hn
  obtain ⟨c, hc, rfl⟩ := Option.map_eq_some_iff.mp h
  obtain ⟨hpc, rfl⟩ := step_recv hc
  exact ⟨hpc, rfl⟩

theorem conn_served {es : List Exchange.Event} (hs : s.conn.Served)
    (hr : runs Exchange.step s es = some t) : t.conn.Served := by
  refine runs_invariant (fun s => s.conn.Served) ?_ hs hr
  intro s e t hs h
  cases e with
  | quiet e =>
    obtain ⟨-, c, -, rfl⟩ := quiet_cases h
    exact hs
  | write tmr n =>
    obtain ⟨-, -, rfl⟩ := write_cases h
    exact hs
  | serve n tmr m =>
    simp only [Exchange.step, Exchange.serve] at h
    split_ifs at h with hn
    cases h
    exact hs.handleReceive
      ⟨.received (s.up.take n) hn.1, datetimeStg tmr, .accepted m⟩
  | recv n =>
    obtain ⟨-, rfl⟩ := recv_cases h
    exact hs

end

end TcpTests.SimpClient
