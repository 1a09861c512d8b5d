import TcpTests.Udpclient.Client

/-! Where `udpclient` sends. It lets `recvfrom` write over the address of the server, and so what
it sends follows the last datagram that it received. -/
namespace TcpTests.Udpclient
open Lib Net

/-- The address that the client sends to is that of the last sender. -/
structure Client.Tracks (c : Client) (server : SockaddrIn) : Prop where
  serveraddr : c.serveraddr = (lastSource? c.transfers).getD server
  follows : Follows server c.transfers

section
variable {c t : Client} {server : SockaddrIn} {turn : Turn}

theorem Client.Tracks.start (server : SockaddrIn) (noSend : Bool) (verbosity : ℕ) :
    (Client.start server noSend verbosity).Tracks server :=
  ⟨rfl, Follows.nil⟩

theorem Client.Tracks.checkKey (hc : c.Tracks server) (chr : Char) :
    (c.checkKey chr).1.Tracks server := by
  unfold Client.checkKey
  split_ifs <;> exact ⟨hc.serveraddr, hc.follows⟩

theorem Client.Tracks.sendto (hc : c.Tracks server) (sendOk : Bool) :
    (c.sendto sendOk).1.Tracks server := by
  have hsent : ∀ bytes, Client.Tracks { c with
      transfers := c.transfers ++ [.sent ⟨c.serveraddr, bytes⟩] } server := by
    intro bytes
    refine ⟨?_, hc.follows.sent hc.serveraddr⟩
    rw [lastSource?_sent]
    exact hc.serveraddr
  unfold Client.sendto
  dsimp only
  split_ifs
  · exact hc
  · exact ⟨(hsent _).serveraddr, (hsent _).follows⟩
  · exact ⟨(hsent _).serveraddr, (hsent _).follows⟩

theorem Client.Tracks.recvfrom (hc : c.Tracks server) (addr : SockaddrIn) (bytes : List Byte) :
    (c.recvfrom addr bytes).Tracks server := by
  refine ⟨?_, hc.follows.received _⟩
  simp only [Client.recvfrom, lastSource?_received, Option.getD_some]

theorem Client.Tracks.top (hc : c.Tracks server) (turn : Turn) : (c.top turn).Tracks server := by
  have hk := hc.checkKey turn.key
  have hs := hk.sendto turn.sendOk
  unfold Client.top
  dsimp only
  split_ifs
  · exact ⟨hk.serveraddr, hk.follows⟩
  · exact ⟨hs.serveraddr, hs.follows⟩
  · exact hs

theorem Client.Tracks.wait (hc : c.Tracks server) (turn : Turn) : (c.wait turn).Tracks server := by
  have hk := hc.checkKey turn.key
  have hw : Client.Tracks { (c.checkKey turn.key).1 with
      waitCycles := (c.checkKey turn.key).1.waitCycles + 1 } server :=
    ⟨hk.serveraddr, hk.follows⟩
  unfold Client.wait
  dsimp only
  split_ifs
  · exact ⟨hc.serveraddr, hc.follows⟩
  · exact ⟨hk.serveraddr, hk.follows⟩
  · cases turn.recv with
    | again => exact hw
    | failed => exact ⟨hw.serveraddr, hw.follows⟩
    | datagram addr bytes =>
      have hr := hw.recvfrom addr bytes
      exact ⟨hr.serveraddr, hr.follows⟩

theorem Client.Tracks.retry (hc : c.Tracks server) (waitCycles : ℕ) (turn : Turn) :
    (c.retry waitCycles turn).Tracks server := by
  have hk := hc.checkKey turn.key
  have hs := hk.sendto turn.sendOk
  unfold Client.retry
  dsimp only
  split_ifs
  · exact ⟨hc.serveraddr, hc.follows⟩
  · exact ⟨hk.serveraddr, hk.follows⟩
  · exact hs
  · cases turn.recv with
    | again => exact ⟨hs.serveraddr, hs.follows⟩
    | failed => exact ⟨hs.serveraddr, hs.follows⟩
    | datagram addr bytes =>
      have hr := hs.recvfrom addr bytes
      exact ⟨hr.serveraddr, hr.follows⟩

theorem step_tracks (hc : c.Tracks server) (h : step c turn = some t) : t.Tracks server := by
  unfold step at h
  split at h
  · cases h
    exact hc.top turn
  · cases h
    exact hc.wait turn
  · cases h
    exact hc.retry _ turn
  · cases h

theorem run_tracks {noSend : Bool} {verbosity : ℕ} {turns : List Turn}
    (hr : runs step (.start server noSend verbosity) turns = some c) : c.Tracks server :=
  runs_invariant (fun c => c.Tracks server) (fun _ _ _ hc h => step_tracks hc h)
    (Client.Tracks.start server noSend verbosity) hr

end

end TcpTests.Udpclient
