import TcpTests.Lib.Lists
import TcpTests.Udpclient.Client

/-! The length of the address in `run_udpclient`. `serveraddrlen` is what `sendto` is given and
what `recvfrom` is given and gives back. `serveraddr` is a pointer there, so that the wait for a
reply sets the length to the size of a pointer. -/
namespace TcpTests.Udpclient
open Lib Net

/-- `sizeof(struct sockaddr_in)` -/
def sizeofSockaddrIn : ℕ := 16

/-- `sizeof(serveraddr)` -/
def sizeofServeraddr : ℕ := 8

/-- The calls that a run makes: `sendto` with the length it is given, `recvfrom` in the wait for a
reply and elsewhere with its success, and the reset of the address on Windows. -/
inductive Call
  | sendto (serveraddrlen : ℕ)
  | waitRecv (ok : Bool)
  | retryRecv (ok : Bool)
  | reset
  deriving DecidableEq, Repr

/-- The client with `serveraddrlen`, and the calls so far. -/
structure Addressing where
  client : Client
  serveraddrlen : ℕ
  calls : List Call

def Addressing.start (client : Client) : Addressing := ⟨client, sizeofSockaddrIn, []⟩

/-- A turn, with what an error of `recvfrom` comes to on Windows: whether it is `WSAEINVAL`, what
the second `recvfrom` then gives, and whether that fails with `WSAEINVAL` again. -/
structure Attempt extends Turn where
  inval : Bool
  second : Recv
  invalAgain : Bool

def Addressing.sendto (a : Addressing) (sendOk : Bool) : Addressing × Bool :=
  let s := a.client.sendto sendOk
  if a.client.noSendToServer then ({ a with client := s.1 }, s.2)
  else ({ a with client := s.1, calls := a.calls ++ [.sendto a.serveraddrlen] }, s.2)

/-- `recvfrom` stores the size of the address when it has one. -/
def Addressing.recvfrom (a : Addressing) (call : Bool → Call) (recv : Recv) : Addressing :=
  match recv with
  | .again | .failed => { a with calls := a.calls ++ [call false] }
  | .datagram addr bytes =>
    ⟨a.client.recvfrom addr bytes, sizeofSockaddrIn, a.calls ++ [call true]⟩

def Addressing.goTo (a : Addressing) (pc : Pc) : Addressing :=
  { a with client := { a.client with pc := pc } }

def Addressing.top (a : Addressing) (turn : Turn) : Addressing :=
  let k := a.client.checkKey turn.key
  let a := { a with client := k.1 }
  if k.2 then a.goTo .done
  else
    let s := a.sendto turn.sendOk
    if s.2 then
      { s.1 with client := { s.1.client with waitReceive := true, waitCycles := 0, pc := .wait } }
    else s.1

/-- The address is that of the command line again, and `recvfrom` is tried once more. -/
def Addressing.retryInval (a : Addressing) (server : SockaddrIn) (turn : Attempt) : Addressing :=
  let a : Addressing :=
    ⟨{ a.client with serveraddr := server }, sizeofSockaddrIn, a.calls ++ [.reset]⟩
  let a := a.recvfrom .retryRecv turn.second
  match turn.second with
  | .failed =>
    if turn.invalAgain then { a with client := { a.client with iret := 1, pc := .done } }
    else a.goTo (.retry 200)
  | .again | .datagram _ _ => a.goTo (.retry 200)

def Addressing.wait (os : Platform) (server : SockaddrIn) (a : Addressing) (turn : Attempt) :
    Addressing :=
  if !a.client.waitReceive then a.goTo .top
  else
    let k := a.client.checkKey turn.key
    if k.2 then Addressing.goTo { a with client := k.1 } .done
    else
      let a : Addressing :=
        ⟨{ k.1 with waitCycles := k.1.waitCycles + 1 }, sizeofServeraddr, a.calls⟩
      let a := a.recvfrom .waitRecv turn.recv
      match turn.recv with
      | .again => a
      | .failed =>
        if os = .windows ∧ turn.inval then a.retryInval server turn
        else a.goTo (.retry 200)
      | .datagram _ _ => { a with client := { a.client with waitReceive := false } }

def Addressing.retry (a : Addressing) (waitCycles : ℕ) (turn : Turn) : Addressing :=
  if waitCycles = 0 then a.goTo .top
  else
    let k := a.client.checkKey turn.key
    let a := { a with client := k.1 }
    if k.2 then a.goTo .done
    else
      let s := a.sendto turn.sendOk
      if !s.2 then s.1
      else
        let a := s.1.recvfrom .retryRecv turn.recv
        match turn.recv with
        | .again | .failed => a.goTo (.retry (waitCycles - 1))
        | .datagram _ _ => a.goTo .top

def addressStep (os : Platform) (server : SockaddrIn) (a : Addressing) (turn : Attempt) :
    Option Addressing :=
  match a.client.pc with
  | .top => some (a.top turn.toTurn)
  | .wait => some (a.wait os server turn)
  | .retry waitCycles => some (a.retry waitCycles turn.toTurn)
  | .done => none

section
variable {os : Platform} {server : SockaddrIn} {a b : Addressing} {turn : Attempt}

theorem Addressing.sendto_client (a : Addressing) (sendOk : Bool) :
    (a.sendto sendOk).1.client = (a.client.sendto sendOk).1 ∧
      (a.sendto sendOk).2 = (a.client.sendto sendOk).2 := by
  unfold sendto
  dsimp only
  split_ifs <;> exact ⟨rfl, rfl⟩

theorem Addressing.top_client (a : Addressing) (turn : Turn) :
    (a.top turn).client = a.client.top turn := by
  obtain ⟨hclient, hok⟩ :=
    Addressing.sendto_client { a with client := (a.client.checkKey turn.key).1 } turn.sendOk
  unfold Addressing.top Client.top
  dsimp only at hclient hok ⊢
  rw [hok]
  split_ifs
  · rfl
  · rw [hclient]
  · exact hclient

theorem Addressing.wait_client (a : Addressing) (turn : Attempt) :
    (a.wait .unix server turn).client = a.client.wait turn.toTurn := by
  unfold Addressing.wait Client.wait
  dsimp only
  by_cases hwait : (!a.client.waitReceive) = true
  · rw [if_pos hwait, if_pos hwait]
    rfl
  by_cases hkey : (a.client.checkKey turn.key).2 = true
  · rw [if_neg hwait, if_neg hwait, if_pos hkey, if_pos hkey]
    rfl
  rw [if_neg hwait, if_neg hwait, if_neg hkey, if_neg hkey]
  cases turn.recv with
  | again => rfl
  | failed =>
    have hunix : ¬ (Platform.unix = .windows ∧ turn.inval = true) := nofun
    dsimp only
    rw [if_neg hunix]
    rfl
  | datagram addr bytes => rfl

theorem Addressing.retry_client (a : Addressing) (waitCycles : ℕ) (turn : Turn) :
    (a.retry waitCycles turn).client = a.client.retry waitCycles turn := by
  obtain ⟨hclient, hok⟩ :=
    Addressing.sendto_client { a with client := (a.client.checkKey turn.key).1 } turn.sendOk
  unfold Addressing.retry Client.retry
  dsimp only at hclient hok ⊢
  rw [hok]
  split_ifs
  · rfl
  · rfl
  · exact hclient
  · cases turn.recv with
    | again => simp only [recvfrom, goTo, hclient]
    | failed => simp only [recvfrom, goTo, hclient]
    | datagram addr bytes => simp only [recvfrom, goTo, hclient]

/-- But for the length, this is the client. -/
theorem addressStep_client (server : SockaddrIn) (a : Addressing) (turn : Attempt) :
    (addressStep .unix server a turn).map Addressing.client = step a.client turn.toTurn := by
  unfold addressStep step
  cases a.client.pc with
  | top => exact congrArg some (a.top_client turn.toTurn)
  | wait => exact congrArg some (a.wait_client turn)
  | retry waitCycles => exact congrArg some (a.retry_client waitCycles turn.toTurn)
  | done => rfl

end

/-- A call after which the length is that of an address. -/
def Call.Restores : Call → Prop
  | .waitRecv ok | .retryRecv ok => ok = true
  | .reset => True
  | .sendto _ => False

/-- Every failed `recvfrom` of the wait for a reply is followed by a call that restores the
length. -/
def Restored (calls : List Call) : Prop :=
  ∀ pre post, calls = pre ++ .waitRecv false :: post → ∃ call ∈ post, call.Restores

/-- What the length is, and what it was at each `sendto`. -/
structure Sized (serveraddrlen : ℕ) (calls : List Call) : Prop where
  length : serveraddrlen = sizeofSockaddrIn ↔ Restored calls
  sends : ∀ pre len post, calls = pre ++ .sendto len :: post →
    (len = sizeofSockaddrIn ↔ Restored pre)

section
variable {len : ℕ} {calls : List Call} {call : Call}

theorem Sized.start : Sized sizeofSockaddrIn [] where
  length := by
    constructor
    · intro _ pre post h
      cases pre <;> cases h
    · intro _
      rfl
  sends pre len post h := by
    cases pre <;> cases h

theorem restored_concat_restores (hr : call.Restores) : Restored (calls ++ [call]) := by
  intro pre post h
  rcases concat_eq_append_cons.mp h with ⟨rfl, rfl, -⟩ | ⟨post, rfl, -⟩
  · cases hr
  · exact ⟨call, List.mem_concat_self, hr⟩

theorem not_restored_concat_waitRecv : ¬ Restored (calls ++ [.waitRecv false]) := by
  intro hr
  obtain ⟨call, hcall, -⟩ := hr calls [] rfl
  cases hcall

theorem restored_concat (hw : call ≠ .waitRecv false) (hr : ¬ call.Restores) :
    Restored (calls ++ [call]) ↔ Restored calls := by
  constructor
  · intro hcalls pre post h
    obtain ⟨x, hx, hxr⟩ := hcalls pre (post ++ [call]) (by rw [h, List.append_assoc]; rfl)
    rcases List.mem_append.mp hx with hx | hx
    · exact ⟨x, hx, hxr⟩
    · rw [List.mem_singleton.mp hx] at hxr
      exact absurd hxr hr
  · intro hcalls pre post h
    rcases concat_eq_append_cons.mp h with ⟨-, hcall, -⟩ | ⟨post', rfl, hpre⟩
    · exact absurd hcall hw
    · obtain ⟨x, hx, hxr⟩ := hcalls pre post' hpre
      exact ⟨x, List.mem_append_left _ hx, hxr⟩

theorem Sized.sends_concat (hs : Sized len calls) (hcall : ∀ n, call ≠ .sendto n) (pre : List Call)
    (n : ℕ) (post : List Call) (h : calls ++ [call] = pre ++ .sendto n :: post) :
    n = sizeofSockaddrIn ↔ Restored pre := by
  rcases concat_eq_append_cons.mp h with ⟨-, rfl, -⟩ | ⟨post, -, h⟩
  · exact absurd rfl (hcall n)
  · exact hs.sends pre n post h

theorem Sized.sendto (hs : Sized len calls) : Sized len (calls ++ [.sendto len]) where
  length := by
    have hcalls : Restored (calls ++ [.sendto len]) ↔ Restored calls := restored_concat nofun id
    exact hs.length.trans hcalls.symm
  sends pre n post h := by
    rcases concat_eq_append_cons.mp h with ⟨-, hcall, rfl⟩ | ⟨post, -, h⟩
    · cases hcall
      exact hs.length
    · exact hs.sends pre n post h

theorem Sized.restores (hs : Sized len calls) (hr : call.Restores) :
    Sized sizeofSockaddrIn (calls ++ [call]) where
  length := iff_of_true rfl (restored_concat_restores hr)
  sends := by
    apply hs.sends_concat
    rintro n rfl
    exact hr

theorem Sized.waitFailed (hs : Sized len calls) :
    Sized sizeofServeraddr (calls ++ [.waitRecv false]) where
  length := iff_of_false (by decide) not_restored_concat_waitRecv
  sends := hs.sends_concat nofun

theorem Sized.retryFailed (hs : Sized len calls) : Sized len (calls ++ [.retryRecv false]) where
  length := by
    have hcalls : Restored (calls ++ [.retryRecv false]) ↔ Restored calls :=
      restored_concat nofun Bool.false_ne_true
    exact hs.length.trans hcalls.symm
  sends := hs.sends_concat nofun

end

def Addressing.Sized (a : Addressing) : Prop := Udpclient.Sized a.serveraddrlen a.calls

section
variable {os : Platform} {server : SockaddrIn} {a b : Addressing}

theorem Addressing.Sized.client (ha : a.Sized) (client : Client) :
    Addressing.Sized { a with client := client } := ha

theorem Addressing.Sized.sendto (ha : a.Sized) (sendOk : Bool) : (a.sendto sendOk).1.Sized := by
  unfold Addressing.sendto
  dsimp only
  split_ifs
  · exact ha.client _
  · exact Udpclient.Sized.sendto ha

theorem Addressing.Sized.retryRecv (ha : a.Sized) (recv : Recv) :
    (a.recvfrom .retryRecv recv).Sized := by
  cases recv with
  | again => exact Udpclient.Sized.retryFailed ha
  | failed => exact Udpclient.Sized.retryFailed ha
  | datagram addr bytes => exact Udpclient.Sized.restores ha rfl

theorem Addressing.Sized.waitRecv (ha : a.Sized) (client : Client) (recv : Recv) :
    (Addressing.recvfrom ⟨client, sizeofServeraddr, a.calls⟩ .waitRecv recv).Sized := by
  cases recv with
  | again => exact Udpclient.Sized.waitFailed ha
  | failed => exact Udpclient.Sized.waitFailed ha
  | datagram addr bytes => exact Udpclient.Sized.restores ha rfl

theorem Addressing.Sized.top (ha : a.Sized) (turn : Turn) : (a.top turn).Sized := by
  have hs := (ha.client (a.client.checkKey turn.key).1).sendto turn.sendOk
  unfold Addressing.top
  dsimp only
  split_ifs
  · exact ha.client _
  · exact hs.client _
  · exact hs

theorem Addressing.Sized.retryInval (ha : a.Sized) (turn : Attempt) :
    (a.retryInval server turn).Sized := by
  have hreset : Addressing.Sized
      ⟨{ a.client with serveraddr := server }, sizeofSockaddrIn, a.calls ++ [.reset]⟩ :=
    Udpclient.Sized.restores ha trivial
  have hr := hreset.retryRecv turn.second
  unfold Addressing.retryInval
  dsimp only
  split
  · split_ifs
    · exact hr.client _
    · exact hr.client _
  · exact hr.client _
  · exact hr.client _

theorem Addressing.Sized.wait (ha : a.Sized) (turn : Attempt) : (a.wait os server turn).Sized := by
  have hr := ha.waitRecv { (a.client.checkKey turn.key).1 with
    waitCycles := (a.client.checkKey turn.key).1.waitCycles + 1 } turn.recv
  unfold Addressing.wait
  dsimp only
  by_cases hwait : (!a.client.waitReceive) = true
  · rw [if_pos hwait]
    exact ha.client _
  by_cases hkey : (a.client.checkKey turn.key).2 = true
  · rw [if_neg hwait, if_pos hkey]
    exact ha.client _
  rw [if_neg hwait, if_neg hkey]
  cases hrecv : turn.recv with
  | again =>
    rw [hrecv] at hr
    exact hr
  | failed =>
    rw [hrecv] at hr
    by_cases hinval : os = .windows ∧ turn.inval = true
    · dsimp only
      rw [if_pos hinval]
      exact hr.retryInval turn
    · dsimp only
      rw [if_neg hinval]
      exact hr.client _
  | datagram addr bytes =>
    rw [hrecv] at hr
    exact hr.client _

theorem Addressing.Sized.retry (ha : a.Sized) (waitCycles : ℕ) (turn : Turn) :
    (a.retry waitCycles turn).Sized := by
  have hs := (ha.client (a.client.checkKey turn.key).1).sendto turn.sendOk
  have hr := hs.retryRecv turn.recv
  unfold Addressing.retry
  dsimp only
  split_ifs
  · exact ha.client _
  · exact ha.client _
  · exact hs
  · split
    · exact hr.client _
    · exact hr.client _
    · exact hr.client _

theorem addressStep_sized {turn : Attempt} (ha : a.Sized)
    (h : addressStep os server a turn = some b) : b.Sized := by
  unfold addressStep at h
  split at h
  · cases h
    exact ha.top turn.toTurn
  · cases h
    exact ha.wait turn
  · cases h
    exact ha.retry _ turn.toTurn
  · cases h

theorem run_sized {client : Client} {turns : List Attempt}
    (hr : runs (addressStep os server) (.start client) turns = some a) : a.Sized := by
  have hstart : (Addressing.start client).Sized := Udpclient.Sized.start
  exact runs_invariant Addressing.Sized (fun _ _ _ ha h => addressStep_sized ha h) hstart hr

end

/-- In a run, `sendto` is always given the size of the address if and only if before each `sendto`
a failed wait for a reply is made good: by a datagram, or on Windows by the reset of the
address. -/
theorem sendto_addrlen_iff (os : Platform) (server : SockaddrIn) (noSendToServer : Bool)
    (verbosity : ℕ) (turns : List Attempt) (a : Addressing)
    (hr : runs (addressStep os server) (.start (.start server noSendToServer verbosity)) turns =
      some a) :
    (∀ len, .sendto len ∈ a.calls → len = sizeofSockaddrIn) ↔
      ∀ pre len post, a.calls = pre ++ .sendto len :: post → Restored pre := by
  have hsized := run_sized hr
  constructor
  · intro hall pre len post h
    have hmem : .sendto len ∈ a.calls := by
      rw [h]
      exact List.mem_append_right _ List.mem_cons_self
    exact (hsized.sends pre len post h).mp (hall len hmem)
  · intro hall len hmem
    obtain ⟨pre, post, h⟩ := List.append_of_mem hmem
    exact (hsized.sends pre len post h).mpr (hall pre len post h)

/-- A turn with a key in which no reply is there. -/
def keyTurn (key : Char) : Attempt := ⟨⟨key, true, .again⟩, false, .again, false⟩

/-- The reset key is pressed in the wait for the first reply. -/
def resetTurns : List Attempt := [keyTurn '\x00', keyTurn 'r', keyTurn '\x00', keyTurn '\x00']

theorem sendto_addrlen_reset : ¬ ∀ a,
    runs (addressStep .unix ⟨0, 0⟩) (.start (.start ⟨0, 0⟩ false 0)) resetTurns = some a →
      ∀ len, .sendto len ∈ a.calls → len = sizeofSockaddrIn := by
  intro hall
  have hlen := hall _ rfl 8 (by decide)
  exact absurd hlen (by decide)

def replyTurns : List Attempt :=
  [keyTurn '\x00', keyTurn '\x00', ⟨⟨'\x00', true, .datagram ⟨1, 2⟩ []⟩, false, .again, false⟩,
    keyTurn '\x00', keyTurn '\x00']

theorem sendto_addrlen_sample : ∃ a,
    runs (addressStep .unix ⟨0, 0⟩) (.start (.start ⟨0, 0⟩ false 0)) replyTurns = some a ∧
      ((∀ len, .sendto len ∈ a.calls → len = sizeofSockaddrIn) ↔
        ∀ pre len post, a.calls = pre ++ .sendto len :: post → Restored pre) :=
  ⟨_, rfl, sendto_addrlen_iff .unix ⟨0, 0⟩ false 0 replyTurns _ rfl⟩

end TcpTests.Udpclient
