import Mathlib.Algebra.Order.Ring.Rat
import Mathlib.Tactic.Linarith
import TcpTests.Lib.Lists
import TcpTests.Lib.SortedMap
import TcpTests.Fgmp.Properties

/-! The motion data that `fgmp_msg` keeps, by time. A map in the order of its times holds the
packets, and a packet that comes long after its time empties it. -/
namespace TcpTests.FgmpMsg
open Lib Fgmp

/-- A packet. Of its motion data only the time is looked at, the rest is copied. -/
structure FGExternalMotionData (α : Type*) where
  time : ℚ
  motion : α
  properties : List FGPropertyData
  deriving DecidableEq

/-- The static data of `fgmp_msg`. -/
structure MotionStore (α : Type*) where
  mMotionInfo : SortedMap ℚ (FGExternalMotionData α)
  mLastTimestamp : ℚ

section
variable {α : Type*}

def MotionStore.start : MotionStore α := ⟨.empty, 0⟩

def MotionStore.store (s : MotionStore α) (motionInfo : FGExternalMotionData α) :
    MotionStore α × FGExternalMotionData α × ℕ :=
  ({ s with mMotionInfo := s.mMotionInfo.insert motionInfo.time motionInfo },
    { motionInfo with properties := [] }, 0)

/-- The store, the packet of the caller and the return value. -/
def addMotionInfo (s : MotionStore α) (motionInfo : FGExternalMotionData α) (stamp : ℚ) :
    MotionStore α × FGExternalMotionData α × ℕ :=
  let s := { s with mLastTimestamp := stamp }
  match s.mMotionInfo.last? with
  | none => s.store motionInfo
  | some newest =>
    let diff := motionInfo.time - newest
    if diff < -10 then MotionStore.store { s with mMotionInfo := .empty } motionInfo
    else if diff < 0 then (s, motionInfo, 1)
    else s.store motionInfo

/-- The store after a sequence of packets, each with the time at which it was added. -/
def addAll (packets : List (FGExternalMotionData α × ℚ)) : MotionStore α :=
  packets.foldl (fun s p => (addMotionInfo s p.1 p.2).1) .start

/-- The stored packets, the oldest first. -/
def MotionStore.packets (s : MotionStore α) : List (FGExternalMotionData α) :=
  s.mMotionInfo.entries.map Prod.snd

inductive Fate
  | dropped
  | reset
  | stored
  deriving DecidableEq, Repr

/-- The fate of a packet is decided by how far it is behind the newest one. -/
def fate (newest : Option ℚ) (time : ℚ) : Fate :=
  match newest with
  | none => .stored
  | some newest =>
    if 10 < newest - time then .reset
    else if 0 < newest - time then .dropped
    else .stored

/-- The packets accepted since the last reset, in the order in which they came. -/
def accepted (packets : List (FGExternalMotionData α × ℚ)) : List (FGExternalMotionData α) :=
  packets.foldl
    (fun acc p =>
      match fate (acc.getLast?.map FGExternalMotionData.time) p.1.time with
      | .dropped => acc
      | .reset => [p.1]
      | .stored => acc ++ [p.1])
    []

/-- A packet of a sequence with none of its time after it. -/
def Latest (acc : List (FGExternalMotionData α)) (q : FGExternalMotionData α) : Prop :=
  ∃ pre post, acc = pre ++ q :: post ∧ ∀ r ∈ post, r.time ≠ q.time

variable {s : MotionStore α} {p q : FGExternalMotionData α} {stamp newest : ℚ}
  {acc : List (FGExternalMotionData α)} {packets : List (FGExternalMotionData α × ℚ)}

theorem fate_dropped : fate s.mMotionInfo.last? p.time = .dropped ↔
    ∃ newest, s.mMotionInfo.last? = some newest ∧ 0 < newest - p.time ∧ newest - p.time ≤ 10 := by
  cases s.mMotionInfo.last? with
  | none => simp [fate]
  | some newest =>
    simp only [fate, Option.some.injEq, exists_eq_left']
    split_ifs with h10 h0
    · exact iff_of_false nofun fun h => absurd h10 (not_lt.mpr h.2)
    · exact iff_of_true rfl ⟨h0, not_lt.mp h10⟩
    · exact iff_of_false nofun fun h => h0 h.1

theorem fate_reset : fate s.mMotionInfo.last? p.time = .reset ↔
    ∃ newest, s.mMotionInfo.last? = some newest ∧ 10 < newest - p.time := by
  cases s.mMotionInfo.last? with
  | none => simp [fate]
  | some newest =>
    simp only [fate, Option.some.injEq, exists_eq_left']
    split_ifs with h10 h0
    · exact iff_of_true rfl h10
    · exact iff_of_false nofun h10
    · exact iff_of_false nofun h10

theorem fate_stored (h : fate s.mMotionInfo.last? p.time = .stored)
    (hn : s.mMotionInfo.last? = some newest) : newest ≤ p.time := by
  rw [hn] at h
  simp only [fate] at h
  split_ifs at h with h10 h0
  exact sub_nonpos.mp (not_lt.mp h0)

/-- The comparisons of the code decide the fate of the packet. -/
theorem addMotionInfo_fate : addMotionInfo s p stamp =
    match fate s.mMotionInfo.last? p.time with
    | .dropped => ({ s with mLastTimestamp := stamp }, p, 1)
    | .reset => MotionStore.store ⟨.empty, stamp⟩ p
    | .stored => MotionStore.store { s with mLastTimestamp := stamp } p := by
  unfold addMotionInfo
  dsimp only
  cases s.mMotionInfo.last? with
  | none => rfl
  | some newest =>
    have h10 : p.time - newest < -10 ↔ 10 < newest - p.time := by
      constructor <;> intro h <;> linarith
    have h0 : p.time - newest < 0 ↔ 0 < newest - p.time := by
      constructor <;> intro h <;> linarith
    simp only [fate, h10, h0]
    split_ifs <;> rfl

theorem latest_concat : Latest (acc ++ [p]) q ↔ q = p ∨ Latest acc q ∧ q.time ≠ p.time := by
  constructor
  · rintro ⟨pre, post, heq, hpost⟩
    rcases concat_eq_append_cons.mp heq with ⟨-, hp, -⟩ | ⟨post, rfl, hacc⟩
    · exact Or.inl hp.symm
    · refine Or.inr ⟨⟨pre, post, hacc, fun r hr => hpost r (by simp [hr])⟩, ?_⟩
      exact (hpost p (by simp)).symm
  · rintro (rfl | ⟨⟨pre, post, rfl, hpost⟩, hne⟩)
    · exact ⟨acc, [], rfl, by simp⟩
    · refine ⟨pre, post ++ [p], by simp, ?_⟩
      intro r hr
      rcases List.mem_append.mp hr with hr | hr
      · exact hpost r hr
      · rw [List.mem_singleton.mp hr]
        exact hne.symm

theorem latest_nil : ¬ Latest [] q := by
  rintro ⟨pre, post, heq, -⟩
  simp at heq

/-- The store holds the packets accepted since the last reset, each under its time and the last
one of a time only. -/
structure Stores (s : MotionStore α) (acc : List (FGExternalMotionData α)) : Prop where
  keys : ∀ e ∈ s.mMotionInfo.entries, e.1 = e.2.time
  mem : ∀ q, q ∈ s.packets ↔ Latest acc q
  newest : s.mMotionInfo.last? = acc.getLast?.map FGExternalMotionData.time

theorem mem_packets (hkeys : ∀ e ∈ s.mMotionInfo.entries, e.1 = e.2.time) :
    q ∈ s.packets ↔ (q.time, q) ∈ s.mMotionInfo.entries := by
  constructor
  · intro hq
    obtain ⟨e, he, rfl⟩ := List.mem_map.mp hq
    rw [← hkeys e he]
    exact he
  · intro hq
    exact List.mem_map.mpr ⟨_, hq, rfl⟩

theorem Stores.empty : Stores (⟨.empty, stamp⟩ : MotionStore α) [] where
  keys := by simp
  mem q := iff_of_false (by simp [MotionStore.packets]) latest_nil
  newest := rfl

theorem Stores.store (hs : Stores s acc)
    (hn : ∀ newest, s.mMotionInfo.last? = some newest → newest ≤ p.time) :
    Stores (s.store p).1 (acc ++ [p]) := by
  have hkeys : ∀ e ∈ (s.store p).1.mMotionInfo.entries, e.1 = e.2.time := by
    intro e he
    rcases SortedMap.mem_insert.mp he with rfl | ⟨he, -⟩
    · rfl
    · exact hs.keys e he
  refine ⟨hkeys, ?_, ?_⟩
  · intro q
    rw [mem_packets hkeys, latest_concat, ← hs.mem q, mem_packets hs.keys]
    refine SortedMap.mem_insert.trans (or_congr_left ?_)
    constructor
    · intro h
      exact congrArg Prod.snd h
    · rintro rfl
      rfl
  · rw [List.getLast?_concat]
    refine SortedMap.last?_eq (SortedMap.mem_insert.mpr (Or.inl rfl)) ?_
    intro e he
    rcases SortedMap.mem_insert.mp he with rfl | ⟨he, -⟩
    · exact le_rfl
    · cases hlast : s.mMotionInfo.last? with
      | none =>
        rw [SortedMap.last?_eq_none.mp hlast] at he
        cases he
      | some newest => exact (SortedMap.le_last? hlast he).trans (hn newest hlast)

theorem addAll_stores (packets : List (FGExternalMotionData α × ℚ)) :
    Stores (addAll packets) (accepted packets) := by
  induction packets using List.reverseRecOn with
  | nil => exact Stores.empty
  | append_singleton packets p ih =>
    have hacc : accepted (packets ++ [p]) =
        match fate (addAll packets).mMotionInfo.last? p.1.time with
        | .dropped => accepted packets
        | .reset => [p.1]
        | .stored => accepted packets ++ [p.1] := by
      rw [ih.newest, accepted, List.foldl_append]
      rfl
    have hadd : addAll (packets ++ [p]) = (addMotionInfo (addAll packets) p.1 p.2).1 := by
      rw [addAll, List.foldl_append]
      rfl
    rw [hacc, hadd, addMotionInfo_fate]
    cases hf : fate (addAll packets).mMotionInfo.last? p.1.time with
    | dropped => exact ⟨ih.keys, ih.mem, ih.newest⟩
    | reset =>
      have hs : Stores (⟨.empty, p.2⟩ : MotionStore α) [] := Stores.empty
      exact hs.store (by simp)
    | stored =>
      have hs : Stores { addAll packets with mLastTimestamp := p.2 } (accepted packets) :=
        ⟨ih.keys, ih.mem, ih.newest⟩
      exact hs.store fun newest hn => fate_stored hf hn

theorem reset_packets : (MotionStore.store ⟨.empty, stamp⟩ p).1.packets = [p] := rfl

theorem Stores.store_packets (hs : Stores s acc) :
    q ∈ (s.store p).1.packets ↔ q = p ∨ q ∈ s.packets ∧ q.time ≠ p.time := by
  unfold MotionStore.packets MotionStore.store
  simp only [List.mem_map, SortedMap.mem_insert]
  constructor
  · rintro ⟨e, rfl | ⟨he, hne⟩, rfl⟩
    · exact Or.inl rfl
    · exact Or.inr ⟨⟨e, he, rfl⟩, hs.keys e he ▸ hne⟩
  · rintro (rfl | ⟨⟨e, he, rfl⟩, hne⟩)
    · exact ⟨_, Or.inl rfl, rfl⟩
    · exact ⟨e, Or.inr ⟨he, (hs.keys e he).symm ▸ hne⟩, rfl⟩

theorem Stores.sorted (hs : Stores s acc) : s.packets.Pairwise (·.time < ·.time) := by
  unfold MotionStore.packets
  rw [List.pairwise_map]
  refine s.mMotionInfo.sorted.imp_of_mem ?_
  intro d e hd he hlt
  rw [← hs.keys d hd, ← hs.keys e he]
  exact hlt

end

/-- After any packets the store holds those accepted since the last reset, in strictly increasing
time, the last one of each time, and its newest time is that of the last accepted. A further
packet is dropped just when it is behind the newest by up to 10, empties the store of all others
just when it is further behind, and replaces those of its own time otherwise. A dropped packet
changes neither the store nor itself, and an accepted one leaves its properties to the store. -/
theorem motion_store {α : Type*} (packets : List (FGExternalMotionData α × ℚ)) :
    let s := addAll packets
    let newest := s.mMotionInfo.last?
    s.packets.Pairwise (·.time < ·.time) ∧
      (∀ q, q ∈ s.packets ↔ Latest (accepted packets) q) ∧
      newest = (accepted packets).getLast?.map FGExternalMotionData.time ∧
      ∀ p stamp,
        let r := addMotionInfo s p stamp
        (r.2.2 = 1 ↔ ∃ n, newest = some n ∧ 0 < n - p.time ∧ n - p.time ≤ 10) ∧
          ((∃ q ∈ s.packets, q.time ≠ p.time ∧ q ∉ r.1.packets) ↔
            ∃ n, newest = some n ∧ 10 < n - p.time) ∧
          ((∃ n, newest = some n ∧ 10 < n - p.time) → r.1.packets = [p]) ∧
          (r.2.2 = 1 → r.1.packets = s.packets ∧ r.2.1 = p) ∧
          (r.2.2 ≠ 1 → r.2.2 = 0 ∧ p ∈ r.1.packets ∧ r.2.1 = { p with properties := [] } ∧
            ∀ q ∈ r.1.packets, q.time = p.time → q = p) := by
  have hs := addAll_stores packets
  refine ⟨hs.sorted, hs.mem, hs.newest, ?_⟩
  intro p stamp
  dsimp only
  rw [← fate_dropped, ← fate_reset, addMotionInfo_fate]
  cases hf : fate (addAll packets).mMotionInfo.last? p.time with
  | dropped =>
    refine ⟨by simp, iff_of_false ?_ nofun, nofun, fun _ => ⟨rfl, rfl⟩, fun h => absurd rfl h⟩
    rintro ⟨q, hq, -, hout⟩
    exact hout hq
  | reset =>
    obtain ⟨n, hn, hlate⟩ := fate_reset.mp hf
    obtain ⟨q, hq⟩ := SortedMap.last?_mem hn
    have htime : n = q.time := hs.keys _ hq
    have hne : q.time ≠ p.time := by
      intro heq
      rw [htime, heq, sub_self] at hlate
      exact absurd hlate (by norm_num)
    refine ⟨iff_of_false nofun nofun, iff_of_true ⟨q, ?_, hne, ?_⟩ rfl, fun _ => reset_packets,
      nofun, fun _ => ⟨rfl, List.mem_singleton_self p, rfl, ?_⟩⟩
    · exact (mem_packets hs.keys).mpr (htime ▸ hq)
    · rw [reset_packets, List.mem_singleton]
      rintro rfl
      exact hne rfl
    · intro q hq _
      exact List.mem_singleton.mp hq
  | stored =>
    have hs' : Stores { addAll packets with mLastTimestamp := stamp } (accepted packets) :=
      ⟨hs.keys, hs.mem, hs.newest⟩
    refine ⟨iff_of_false nofun nofun, iff_of_false ?_ nofun, nofun, nofun,
      fun _ => ⟨rfl, hs'.store_packets.mpr (Or.inl rfl), rfl, ?_⟩⟩
    · rintro ⟨q, hq, hne, hout⟩
      exact hout (hs'.store_packets.mpr (Or.inr ⟨hq, hne⟩))
    · intro q hq heq
      exact (hs'.store_packets.mp hq).resolve_right fun h => h.2 heq

end TcpTests.FgmpMsg
