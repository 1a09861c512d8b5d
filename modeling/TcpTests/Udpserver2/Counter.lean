import Mathlib.Algebra.BigOperators.Group.List.Basic
import TcpTests.Udpserver2.Server

/-! The counter of `udpserver2` as the sum of the requests. -/
namespace TcpTests.Udpserver2
open Lib Net

structure Request where
  addr : SockaddrIn
  increment : Word
  deriving DecidableEq, Repr

def Request.ofDatagram (d : Datagram) : Request := ⟨d.addr, beWord (carried d.bytes) 0⟩

/-- The datagrams whose length is accepted, as requests. -/
def requestsOf (accepts : ℕ → Bool) (ds : List Datagram) : List Request :=
  (ds.filter fun d => accepts d.bytes.length).map .ofDatagram

/-- The well-formed requests are those of exactly four bytes. -/
def requests (ds : List Datagram) : List Request := requestsOf (· == sizeofInt) ds

/-- The sum of the increments, modulo 2 ^ 32. -/
def total (rs : List Request) : Word := (rs.map Request.increment).sum

/-- One reply to each request, to its sender, with the sum up to it in network order. -/
def replies (rs : List Request) : List Datagram :=
  rs.mapIdx fun k r => ⟨r.addr, wordBytes .big (total (rs.take (k + 1)))⟩

section
variable {rs : List Request} {r : Request} {ds : List Datagram} {h : Endian}

@[simp] theorem replies_length : (replies rs).length = rs.length := List.length_mapIdx

@[simp] theorem replies_getElem {k : ℕ} (hk : k < (replies rs).length) :
    (replies rs)[k] =
      ⟨(rs.get ⟨k, by simpa using hk⟩).addr, wordBytes .big (total (rs.take (k + 1)))⟩ :=
  List.getElem_mapIdx ..

@[simp] theorem total_concat : total (rs ++ [r]) = total rs + r.increment := by
  simp [total]

theorem replies_concat :
    replies (rs ++ [r]) = replies rs ++ [⟨r.addr, wordBytes .big (total (rs ++ [r]))⟩] := by
  have hinit : (rs.mapIdx fun k r' =>
      (⟨r'.addr, wordBytes .big (total ((rs ++ [r]).take (k + 1)))⟩ : Datagram)) = replies rs := by
    apply List.ext_getElem
    · simp
    · intro k hk _
      have hlt : k < rs.length := by simpa using hk
      rw [List.getElem_mapIdx, replies_getElem, List.take_append_of_le_length (by omega)]
      rfl
  rw [replies, List.mapIdx_concat, hinit,
    List.take_of_length_le (by rw [List.length_append, List.length_singleton])]

theorem replies_addr : (replies rs).map Datagram.addr = rs.map Request.addr := by
  apply List.ext_getElem
  · simp
  · intro k hk hk'
    simp

/-- The server takes every datagram of at least four bytes for a request. -/
theorem run_takes (thisinc : Mem) (client : SockaddrIn) (ds : List Datagram) :
    ∃ s, runs (pass h) (.start thisinc client) (ds.map .arrives) = some s ∧
      s.running = true ∧ s.count = total (requestsOf (sizeofInt ≤ ·) ds) ∧
      s.sent = replies (requestsOf (sizeofInt ≤ ·) ds) := by
  induction ds using List.reverseRecOn with
  | nil => exact ⟨_, rfl, rfl, rfl, rfl⟩
  | append_singleton ds d ih =>
    obtain ⟨s, hr, hrun, hcount, hsent⟩ := ih
    rw [List.map_append]
    by_cases hd : sizeofInt ≤ d.bytes.length
    · obtain ⟨t, ht, hrun', hcount', hsent'⟩ := pass_answers (h := h) hrun hd
      have htaken : requestsOf (sizeofInt ≤ ·) (ds ++ [d]) =
          requestsOf (sizeofInt ≤ ·) ds ++ [.ofDatagram d] := by
        simp [requestsOf, hd]
      have htotal : t.count = total (requestsOf (sizeofInt ≤ ·) ds ++ [.ofDatagram d]) := by
        rw [hcount', hcount, total_concat]
        rfl
      refine ⟨t, runs_concat.mpr ⟨s, hr, ht⟩, hrun', ?_, ?_⟩
      · rw [htaken, htotal]
      · rw [htaken, replies_concat, hsent', hsent, htotal]
        rfl
    · obtain ⟨t, ht, hrun', hcount', hsent'⟩ := pass_ignores (h := h) hrun (Nat.lt_of_not_le hd)
      have htaken : requestsOf (sizeofInt ≤ ·) (ds ++ [d]) =
          requestsOf (sizeofInt ≤ ·) ds := by
        simp [requestsOf, hd]
      refine ⟨t, runs_concat.mpr ⟨s, hr, ht⟩, hrun', ?_, ?_⟩
      · rw [htaken, hcount', hcount]
      · rw [htaken, hsent', hsent]

theorem requestsOf_length (ds : List Datagram) :
    (requestsOf (sizeofInt ≤ ·) ds).length =
      (requests ds).length + ds.countP (fun d => sizeofInt < d.bytes.length) := by
  simp only [requests, requestsOf, List.length_map, ← List.countP_eq_length_filter]
  induction ds with
  | nil => rfl
  | cons d ds ih =>
    simp only [List.countP_cons, ih, decide_eq_true_eq, beq_iff_eq]
    split_ifs <;> omega

theorem requestsOf_eq (hds : ∀ d ∈ ds, d.bytes.length ≤ sizeofInt) :
    requestsOf (sizeofInt ≤ ·) ds = requests ds := by
  unfold requests requestsOf
  congr 1
  apply List.filter_congr
  intro d hd
  have hle := hds d hd
  rw [Bool.eq_iff_iff]
  simp only [decide_eq_true_eq, beq_iff_eq]
  omega

end

/-- After any datagrams the count is the sum of the well-formed requests, and these and no others
were answered, just when no datagram was longer than four bytes. -/
theorem count_iff (h : Endian) (thisinc : Mem) (client : SockaddrIn) (ds : List Datagram) :
    ∃ s, runs (pass h) (.start thisinc client) (ds.map .arrives) = some s ∧
      ((s.count = total (requests ds) ∧ s.sent = replies (requests ds)) ↔
        ∀ d ∈ ds, d.bytes.length ≤ sizeofInt) := by
  obtain ⟨s, hr, -, hcount, hsent⟩ := run_takes (h := h) thisinc client ds
  refine ⟨s, hr, ?_⟩
  constructor
  · rintro ⟨-, hreplies⟩ d hd
    have hlen := congrArg List.length (hsent.symm.trans hreplies)
    rw [replies_length, replies_length, requestsOf_length] at hlen
    have hnone := List.countP_eq_zero.mp
      (show ds.countP (fun d => sizeofInt < d.bytes.length) = 0 by omega) d hd
    simpa using hnone
  · intro hds
    rw [requestsOf_eq hds] at hcount hsent
    exact ⟨hcount, hsent⟩

/-- Five bytes are taken for a request of four. -/
theorem count_truncated :
    ∃ s, runs (pass .little) (.start (fun _ => 0) ⟨0#32, 0#16⟩)
        [.arrives ⟨⟨1#32, 2#16⟩, [0, 0, 0, 7, 9]⟩] = some s ∧
      s.count = 7#32 ∧ s.sent = [⟨⟨1#32, 2#16⟩, [0, 0, 0, 7]⟩] ∧
      ¬ (s.count = total (requests [⟨⟨1#32, 2#16⟩, [0, 0, 0, 7, 9]⟩])) := by
  refine ⟨_, rfl, ?_, ?_, ?_⟩ <;> decide

end TcpTests.Udpserver2
