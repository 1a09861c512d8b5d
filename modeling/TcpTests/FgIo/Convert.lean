import Mathlib.Algebra.BigOperators.Group.List.Lemmas
import Mathlib.Algebra.Order.BigOperators.Group.List
import Mathlib.Order.Interval.Set.Defs
import TcpTests.FgIo.NetFdm

/-! What `convert_net_fdm` touches, and the values that it leaves. -/
namespace TcpTests.FgIo
open Lib Net

/-- The bytes of an element in the order of the host, for bytes in network order. -/
def hostOrder (h : Endian) (bytes : List Byte) : List Byte :=
  match h with
  | .little => bytes.reverse
  | .big => bytes

@[simp] theorem hostOrder_length (h : Endian) (bytes : List Byte) :
    (hostOrder h bytes).length = bytes.length := by
  cases h with
  | little => exact List.length_reverse
  | big => rfl

def toHost (h : Endian) (width : ℕ) (m : Mem) (x : ℕ) : Mem :=
  m.write x (hostOrder h (m.read x width))

theorem read_toHost (h : Endian) (width : ℕ) (m : Mem) (x : ℕ) :
    (toHost h width m x).read x width = hostOrder h (m.read x width) := by
  apply Mem.read_write_of_length
  rw [hostOrder_length, Mem.read_length]

theorem wordBytes_loadWord (h : Endian) (m : Mem) (x : ℕ) :
    wordBytes .big (loadWord h m x) = hostOrder h (m.read x 4) := by
  cases h with
  | little => exact wordBytes_append _ _ _ _
  | big => exact wordBytes_append _ _ _ _

theorem htonl_eq_toHost (h : Endian) (m : Mem) (x : ℕ) :
    storeWord h m x (htonl h (loadWord h m x)) = toHost h 4 m x := by
  rw [htonl, Fgmp.storeWord_swap32, wordBytes_loadWord, toHost]

theorem htonf_eq_toHost (h : Endian) (m : Mem) (x : ℕ) : htonf h m x = toHost h 4 m x := by
  cases h with
  | little => exact htonl_eq_toHost .little m x
  | big => exact (Mem.write_read_self m x 4).symm

theorem htond_eq_toHost (h : Endian) (m : Mem) (x : ℕ) : htond h m x = toHost h 8 m x := by
  cases h with
  | big => exact (Mem.write_read_self m x 8).symm
  | little =>
    have hread : m.read x 8 = m.read x 4 ++ m.read (x + 4) 4 := Mem.read_add m x 4 4
    unfold htond toHost
    simp only [htonl, Fgmp.storeWord_swap32, wordBytes_loadWord]
    rw [Mem.write_write _ _ _ (by rfl), hread]
    simp only [hostOrder, List.reverse_append]

theorem Swap.run_eq_toHost (h : Endian) (m : Mem) (x : ℕ) (swap : Swap) :
    swap.run h m x = toHost h swap.width m x := by
  cases swap with
  | ntohl => exact htonl_eq_toHost h m x
  | htonl => exact htonl_eq_toHost h m x
  | htonf => exact htonf_eq_toHost h m x
  | htond => exact htond_eq_toHost h m x

namespace Member

theorem all_getElem? (m : Member) : all[m.ctorIdx]? = some m := by
  cases m <;> rfl

theorem offset_add_size_le {m n : Member} (h : m.ctorIdx < n.ctorIdx) :
    m.offset + m.size ≤ n.offset := by
  have hend : m.offset + m.size = ((all.take (m.ctorIdx + 1)).map size).sum := by
    rw [List.take_add_one, all_getElem?, Option.toList_some, List.map_append, List.sum_append]
    rfl
  have hsub : ((all.take (m.ctorIdx + 1)).map size).Sublist ((all.take n.ctorIdx).map size) :=
    (List.take_sublist_take_left h).map size
  rw [hend]
  exact hsub.sum_le_sum fun a _ => Nat.zero_le a

theorem ctorIdx_injective {m n : Member} (h : m.ctorIdx = n.ctorIdx) : m = n := by
  have hm := all_getElem? m
  rw [h, all_getElem?] at hm
  exact (Option.some.inj hm).symm

end Member

namespace Element

variable {net : ℕ} {e e' : Element}

def region (net : ℕ) (e : Element) : Set ℕ :=
  Set.Ico (e.address net) (e.address net + e.member.width)

def Valid (e : Element) : Prop := e.index < e.member.entries

instance : DecidablePred Valid := fun e => inferInstanceAs (Decidable (e.index < e.member.entries))

theorem Valid.address_add_width_le (net : ℕ) (he : e.Valid) :
    e.address net + e.member.width ≤ net + e.member.offset + e.member.size := by
  have hnext : e.member.width * (e.index + 1) ≤ e.member.width * e.member.entries :=
    Nat.mul_le_mul_left e.member.width he
  rw [Nat.mul_succ] at hnext
  unfold address Member.size
  omega

theorem le_address (net : ℕ) (e : Element) : net + e.member.offset ≤ e.address net :=
  Nat.le_add_right _ _

theorem region_disjoint_of_le (h : e.address net + e.member.width ≤ e'.address net) :
    ∀ a ∈ e.region net, a ∉ e'.region net := by
  rintro a ⟨-, hhi⟩ ⟨hlo, -⟩
  omega

theorem Valid.disjoint_of_lt (he : e.Valid) (h : e.member.ctorIdx < e'.member.ctorIdx) :
    ∀ a ∈ e.region net, a ∉ e'.region net := by
  have hend := he.address_add_width_le net
  have hstart := le_address net e'
  have hsize := Member.offset_add_size_le h
  exact region_disjoint_of_le (by omega)

theorem Valid.disjoint (he : e.Valid) (he' : e'.Valid) (hne : e ≠ e') :
    ∀ a ∈ e.region net, a ∉ e'.region net := by
  rcases Nat.lt_trichotomy e.member.ctorIdx e'.member.ctorIdx with h | h | h
  · exact he.disjoint_of_lt h
  · obtain ⟨m, i⟩ := e
    obtain ⟨n, j⟩ := e'
    obtain rfl : m = n := Member.ctorIdx_injective h
    have hij : i ≠ j := fun hij => hne (by rw [hij])
    rcases Nat.lt_or_gt_of_ne hij with hij | hij
    · have hnext : m.width * (i + 1) ≤ m.width * j := Nat.mul_le_mul_left _ hij
      rw [Nat.mul_succ] at hnext
      have hbefore : (⟨m, i⟩ : Element).address net + m.width ≤ (⟨m, j⟩ : Element).address net := by
        unfold address
        dsimp only
        omega
      exact region_disjoint_of_le hbefore
    · have hnext : m.width * (j + 1) ≤ m.width * i := Nat.mul_le_mul_left _ hij
      rw [Nat.mul_succ] at hnext
      have hbefore : (⟨m, j⟩ : Element).address net + m.width ≤ (⟨m, i⟩ : Element).address net := by
        unfold address
        dsimp only
        omega
      exact fun a ha ha' => region_disjoint_of_le hbefore a ha' ha
  · exact fun a ha ha' => he'.disjoint_of_lt h a ha' ha

def swap (h : Endian) (net : ℕ) (e : Element) (m : Mem) : Mem :=
  toHost h e.member.width m (e.address net)

theorem swap_local (h : Endian) (net : ℕ) : LocalUpdate (region net) (swap h net) where
  frame e m a ha := by
    unfold swap toHost
    by_cases hlo : e.address net ≤ a
    · have hhi : e.address net + e.member.width ≤ a := Nat.le_of_not_lt fun hhi => ha ⟨hlo, hhi⟩
      exact Mem.write_ge m _ (by rwa [hostOrder_length, Mem.read_length])
    · exact Mem.write_lt m _ (Nat.lt_of_not_le hlo)
  congr e m m' hm a ha := by
    have hread : Mem.read m (e.address net) e.member.width =
        Mem.read m' (e.address net) e.member.width :=
      Mem.read_congr fun b hlo hhi => hm b ⟨hlo, hhi⟩
    have hlen : a - e.address net <
        (hostOrder h (Mem.read m' (e.address net) e.member.width)).length := by
      rw [hostOrder_length, Mem.read_length]
      have := ha.2
      have := ha.1
      omega
    unfold swap toHost
    rw [hread, Mem.write_mem m _ ha.1 hlen, Mem.write_mem m' _ ha.1 hlen]

end Element

def Conversion.after (h : Endian) (net : ℕ) (es : List Element) (c : Conversion) : Conversion :=
  ⟨updates (Element.swap h net) es c.mem, c.touched ++ es⟩

/-- The elements of the statements of one round. -/
def elementsAt (body : List (Swap × Member)) (i : ℕ) : List Element := body.map fun p => ⟨p.2, i⟩

/-- Every statement swaps the width of its member. -/
def Fits (body : List (Swap × Member)) : Prop := ∀ p ∈ body, p.1.width = p.2.width

instance : DecidablePred Fits :=
  fun body => inferInstanceAs (Decidable (∀ p ∈ body, p.1.width = p.2.width))

section
variable {h : Endian} {net : ℕ} {c : Conversion} {es es' : List Element} {count : Member}
  {body : List (Swap × Member)} {i : ℕ}

theorem Conversion.after_after :
    (c.after h net es).after h net es' = c.after h net (es ++ es') := by
  unfold after
  rw [updates_append, List.append_assoc]

theorem Conversion.statements_eq (hb : Fits body) :
    c.statements h net i body = c.after h net (elementsAt body i) := by
  induction body generalizing c with
  | nil =>
    unfold statements after elementsAt updates
    rw [List.map_nil, List.append_nil]
  | cons p body ih =>
    have hp : p.1.run h c.mem (Element.address net ⟨p.2, i⟩) =
        Element.swap h net ⟨p.2, i⟩ c.mem := by
      rw [Swap.run_eq_toHost, hb p List.mem_cons_self]
      rfl
    have hrest := ih (c := ⟨Element.swap h net ⟨p.2, i⟩ c.mem, c.touched ++ [⟨p.2, i⟩]⟩)
      fun q hq => hb q (List.mem_cons_of_mem p hq)
    have hstep : c.statements h net i (p :: body) = Conversion.statements h net i body
        ⟨p.1.run h c.mem (Element.address net ⟨p.2, i⟩), c.touched ++ [⟨p.2, i⟩]⟩ := rfl
    rw [hstep, hp, hrest]
    unfold after
    rw [List.append_assoc]
    rfl

theorem Conversion.loadWord_after {a : ℕ} (ha : ∀ e ∈ es, a + 4 ≤ e.address net) :
    loadWord h (c.after h net es).mem a = loadWord h c.mem a := by
  apply loadWord_congr
  intro j hj
  apply (Element.swap_local h net).updates_outside
  intro e he hin
  have hstart := ha e he
  have hlo : e.address net ≤ a + j := hin.1
  omega

/-- The rounds of a loop read the same count, for the arrays lie behind it. -/
theorem Conversion.loop_eq (hb : Fits body)
    (hcount : ∀ p ∈ body, count.offset + 4 ≤ p.2.offset) (i : ℕ) (c : Conversion) :
    c.loop h net count body i = c.after h net
      ((List.range' i ((loadWord h c.mem (net + count.offset)).toNat - i)).flatMap
        (elementsAt body)) := by
  generalize hn : (loadWord h c.mem (net + count.offset)).toNat - i = n
  induction n generalizing i c with
  | zero =>
    have hend : ¬ i < (loadWord h c.mem (net + count.offset)).toNat := by omega
    rw [loop, if_neg hend]
    unfold after
    rw [List.range'_zero, List.flatMap_nil, List.append_nil]
    rfl
  | succ n ih =>
    have hround : i < (loadWord h c.mem (net + count.offset)).toNat := by omega
    have hkept : loadWord h (c.after h net (elementsAt body i)).mem (net + count.offset) =
        loadWord h c.mem (net + count.offset) := by
      apply loadWord_after
      intro e he
      obtain ⟨p, hp, rfl⟩ := List.mem_map.mp he
      have hbehind := hcount p hp
      have hstart := Element.le_address net ⟨p.2, i⟩
      dsimp only at hstart
      omega
    rw [loop, if_pos hround, statements_eq hb, ih (i + 1) _ (by rw [hkept]; omega), after_after,
      List.range'_succ, List.flatMap_cons]

/-- The elements of the statements before the test of the loop over the tanks, with the number of
rounds of the loop over the engines. -/
def elementsToTanks (engines : ℕ) : List Element :=
  elementsAt headStatements 0 ++ (List.range engines).flatMap (elementsAt engineStatements) ++
    [⟨.numTanks, 0⟩]

def elementsToWheels (engines tanks : ℕ) : List Element :=
  elementsToTanks engines ++ (List.range tanks).flatMap (elementsAt tankStatements) ++
    [⟨.numWheels, 0⟩]

def elements (engines tanks wheels : ℕ) : List Element :=
  elementsToWheels engines tanks ++ (List.range wheels).flatMap (elementsAt wheelStatements) ++
    elementsAt tailStatements 0

/-- The count that the code finds after the conversion of some elements. -/
def countAfter (h : Endian) (net : ℕ) (m : Mem) (es : List Element) (count : Member) : ℕ :=
  (loadWord h (updates (Element.swap h net) es m) (net + count.offset)).toNat

theorem Conversion.loop_after {m : Mem} (hb : Fits body)
    (hcount : ∀ p ∈ body, count.offset + 4 ≤ p.2.offset) (es : List Element) :
    (Conversion.after h net es ⟨m, []⟩).loop h net count body 0 =
      Conversion.after h net
        (es ++ (List.range (countAfter h net m es count)).flatMap (elementsAt body)) ⟨m, []⟩ := by
  rw [loop_eq hb hcount, after_after, Nat.sub_zero, ← List.range_eq_range']
  rfl

/-- The loops run to the counts that the conversion before them leaves. -/
theorem convertNetFdm_eq (h : Endian) (net : ℕ) (m : Mem) :
    ∃ engines tanks wheels,
      engines = countAfter h net m (elementsAt headStatements 0) .numEngines ∧
      tanks = countAfter h net m (elementsToTanks engines) .numTanks ∧
      wheels = countAfter h net m (elementsToWheels engines tanks) .numWheels ∧
      convertNetFdm h net m =
        ⟨updates (Element.swap h net) (elements engines tanks wheels) m,
          elements engines tanks wheels⟩ := by
  refine ⟨_, _, _, rfl, rfl, rfl, ?_⟩
  have hhead : Fits headStatements := by decide
  have hengines : Fits engineStatements := by decide
  have hnumTanks : Fits [(.htonl, .numTanks)] := by decide
  have htanks : Fits tankStatements := by decide
  have hnumWheels : Fits [(.htonl, .numWheels)] := by decide
  have hwheels : Fits wheelStatements := by decide
  have htail : Fits tailStatements := by decide
  have htank : elementsAt [(.htonl, .numTanks)] 0 = [⟨.numTanks, 0⟩] := rfl
  have hwheel : elementsAt [(.htonl, .numWheels)] 0 = [⟨.numWheels, 0⟩] := rfl
  unfold convertNetFdm
  dsimp only
  rw [Conversion.statements_eq hhead, Conversion.loop_after hengines (by decide),
    Conversion.statements_eq hnumTanks, Conversion.after_after, htank, ← elementsToTanks,
    Conversion.loop_after htanks (by decide), Conversion.statements_eq hnumWheels,
    Conversion.after_after, hwheel, ← elementsToWheels,
    Conversion.loop_after hwheels (by decide), Conversion.statements_eq htail,
    Conversion.after_after, ← elements]
  unfold Conversion.after
  rw [List.nil_append]

theorem elements_sublist {engines tanks wheels engines' tanks' wheels' : ℕ}
    (he : engines ≤ engines') (ht : tanks ≤ tanks') (hw : wheels ≤ wheels') :
    (elements engines tanks wheels).Sublist (elements engines' tanks' wheels') := by
  have hengines := ((List.range_sublist.mpr he).flatMap (elementsAt engineStatements))
  have htanks := ((List.range_sublist.mpr ht).flatMap (elementsAt tankStatements))
  have hwheels := ((List.range_sublist.mpr hw).flatMap (elementsAt wheelStatements))
  have htoTanks := ((hengines.append_left (elementsAt headStatements 0)).append_right
    [⟨.numTanks, 0⟩])
  have htoWheels := ((htoTanks.append htanks).append_right [⟨.numWheels, 0⟩])
  exact (htoWheels.append hwheels).append_right (elementsAt tailStatements 0)

theorem elements_max_valid :
    ∀ e ∈ elements fgMaxEngines fgMaxTanks fgMaxWheels, e.Valid := by
  decide

theorem elements_max_nodup : (elements fgMaxEngines fgMaxTanks fgMaxWheels).Nodup := by
  decide

theorem elements_valid_iff {engines tanks wheels : ℕ} :
    (∀ e ∈ elements engines tanks wheels, e.Valid) ↔
      engines ≤ fgMaxEngines ∧ tanks ≤ fgMaxTanks ∧ wheels ≤ fgMaxWheels := by
  constructor
  · intro hvalid
    refine ⟨?_, ?_, ?_⟩
    · by_contra hmany
      have hmem : ⟨.engState, fgMaxEngines⟩ ∈ elements engines tanks wheels := by
        simp only [elements, elementsToWheels, elementsToTanks, List.mem_append, List.mem_flatMap,
          List.mem_range]
        exact Or.inl (Or.inl (Or.inl (Or.inl (Or.inl (Or.inr
          ⟨fgMaxEngines, by omega, List.mem_cons_self⟩)))))
      exact absurd (hvalid _ hmem) (by decide)
    · by_contra hmany
      have hmem : ⟨.fuelQuantity, fgMaxTanks⟩ ∈ elements engines tanks wheels := by
        simp only [elements, elementsToWheels, List.mem_append, List.mem_flatMap, List.mem_range]
        exact Or.inl (Or.inl (Or.inl (Or.inr ⟨fgMaxTanks, by omega, List.mem_cons_self⟩)))
      exact absurd (hvalid _ hmem) (by decide)
    · by_contra hmany
      have hmem : ⟨.wow, fgMaxWheels⟩ ∈ elements engines tanks wheels := by
        simp only [elements, List.mem_append, List.mem_flatMap, List.mem_range]
        exact Or.inl (Or.inr ⟨fgMaxWheels, by omega, List.mem_cons_self⟩)
      exact absurd (hvalid _ hmem) (by decide)
  · rintro ⟨he, ht, hw⟩ e hmem
    exact elements_max_valid e ((elements_sublist he ht hw).subset hmem)

theorem regions_disjoint (hes : es.Sublist (elements fgMaxEngines fgMaxTanks fgMaxWheels)) :
    es.Pairwise fun e e' => ∀ a ∈ e.region net, a ∉ e'.region net := by
  have hnodup : es.Nodup := elements_max_nodup.sublist hes
  apply hnodup.imp_of_mem
  intro e e' he he' hne
  exact (elements_max_valid e (hes.subset he)).disjoint (elements_max_valid e' (hes.subset he')) hne

/-- Among elements of the record, a converted one is converted as if it were the only one. -/
theorem read_updates (h : Endian) (net : ℕ) (m : Mem) {e : Element}
    (hes : es.Sublist (elements fgMaxEngines fgMaxTanks fgMaxWheels)) (he : e ∈ es) :
    Mem.read (updates (Element.swap h net) es m) (e.address net) e.member.width =
      hostOrder h (m.read (e.address net) e.member.width) := by
  rw [← read_toHost]
  apply Mem.read_congr
  intro a hlo hhi
  exact (Element.swap_local h net).updates_at (regions_disjoint hes) he ⟨hlo, hhi⟩

def wireCount (m : Mem) (net : ℕ) (count : Member) : ℕ := (beWord m (net + count.offset)).toNat

theorem loadWord_of_hostOrder {m m' : Mem} {x y : ℕ}
    (hr : m'.read y 4 = hostOrder h (m.read x 4)) : loadWord h m' y = beWord m x := by
  have hword : wordBytes .big (loadWord h m' y) = wordBytes .big (beWord m x) := by
    rw [wordBytes_loadWord, hr]
    cases h with
    | little =>
      simp only [hostOrder, List.reverse_reverse]
      exact (wordBytes_append _ _ _ _).symm
    | big => exact (wordBytes_append _ _ _ _).symm
  exact wordBytes_inj.mp hword

theorem countAfter_eq {m : Mem} (hw : count.width = 4)
    (hes : es.Sublist (elements fgMaxEngines fgMaxTanks fgMaxWheels)) (he : ⟨count, 0⟩ ∈ es) :
    countAfter h net m es count = wireCount m net count := by
  have hread := read_updates h net m hes he
  have haddr : Element.address net ⟨count, 0⟩ = net + count.offset := rfl
  dsimp only at hread
  rw [haddr, hw] at hread
  rw [countAfter, loadWord_of_hostOrder hread, wireCount]

/-- While the counts before are in range, a loop runs to the count that came over the wire. -/
theorem convertNetFdm_counts (h : Endian) (net : ℕ) (m : Mem) :
    ∃ engines tanks wheels,
      engines = wireCount m net .numEngines ∧
      (engines ≤ fgMaxEngines → tanks = wireCount m net .numTanks) ∧
      (engines ≤ fgMaxEngines → tanks ≤ fgMaxTanks → wheels = wireCount m net .numWheels) ∧
      convertNetFdm h net m =
        ⟨updates (Element.swap h net) (elements engines tanks wheels) m,
          elements engines tanks wheels⟩ := by
  obtain ⟨engines, tanks, wheels, hengines, htanks, hwheels, hc⟩ := convertNetFdm_eq h net m
  refine ⟨engines, tanks, wheels, ?_, ?_, ?_, hc⟩
  · rw [hengines]
    apply countAfter_eq rfl _ (by decide)
    exact List.sublist_append_left _ _ |>.trans (List.sublist_append_left _ _) |>.trans
      (List.sublist_append_left _ _) |>.trans (List.sublist_append_left _ _)
  · intro he
    rw [htanks]
    have hmem : (⟨.numTanks, 0⟩ : Element) ∈ elementsToTanks engines :=
      List.mem_append_right _ List.mem_cons_self
    apply countAfter_eq rfl _ hmem
    have hprefix : (elementsToTanks engines).Sublist (elements engines 0 0) := by
      simp only [elements, elementsToWheels, List.append_assoc]
      exact List.sublist_append_left _ _
    exact hprefix.trans (elements_sublist he (Nat.zero_le _) (Nat.zero_le _))
  · intro he ht
    rw [hwheels]
    have hmem : (⟨.numWheels, 0⟩ : Element) ∈ elementsToWheels engines tanks :=
      List.mem_append_right _ List.mem_cons_self
    apply countAfter_eq rfl _ hmem
    have hprefix : (elementsToWheels engines tanks).Sublist (elements engines tanks 0) := by
      simp only [elements, List.append_assoc]
      exact List.sublist_append_left _ _
    exact hprefix.trans (elements_sublist he ht (Nat.zero_le _))

structure CountsFit (m : Mem) (net : ℕ) : Prop where
  engines : wireCount m net .numEngines ≤ fgMaxEngines
  tanks : wireCount m net .numTanks ≤ fgMaxTanks
  wheels : wireCount m net .numWheels ≤ fgMaxWheels

theorem convertNetFdm_valid_iff {m : Mem} :
    (∀ e ∈ (convertNetFdm h net m).touched, e.Valid) ↔ CountsFit m net := by
  obtain ⟨engines, tanks, wheels, rfl, htanks, hwheels, hc⟩ := convertNetFdm_counts h net m
  rw [hc, elements_valid_iff]
  constructor
  · rintro ⟨he, ht, hw⟩
    obtain rfl := htanks he
    obtain rfl := hwheels he ht
    exact ⟨he, ht, hw⟩
  · rintro ⟨he, ht, hw⟩
    rw [← htanks he] at ht
    rw [← hwheels he ht] at hw
    exact ⟨he, ht, hw⟩

end

end TcpTests.FgIo
