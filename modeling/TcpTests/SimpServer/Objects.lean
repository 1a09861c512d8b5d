import Mathlib.Logic.Function.Basic
import Mathlib.Data.List.Nodup
import TcpTests.SimpServer.Registry

/-! The objects behind `vInClients`. The vector holds pointers; an entry whose `sock` is not that
of a connection is passed over, and the `offset` for `erase` does not count it. Following a
pointer to a deleted object is undefined behaviour, and `process_clients` has no state after it. -/
namespace TcpTests.SimpServer
open Lib

abbrev PInClient := ℕ

/-- The objects that have been allocated and not deleted. -/
abbrev Heap := PInClient → Option InClient

/-- The list of clients, with the arguments of `SCLOSE` and the pointers that were deleted. -/
structure Clients where
  heap : Heap
  vInClients : List PInClient
  sclosed : List ℤ
  deleted : List PInClient

/-- The first loop of `process_clients`: the objects and `had_errors`. -/
def receiveObjects (doEcho : Bool) (listenSocket : Finset ℤ) (ios : PInClient → Io) :
    List PInClient → Heap → Option (Heap × ℕ)
  | [], heap => some (heap, 0)
  | p :: ps, heap =>
    match heap p with
    | none => none
    | some pic =>
      if ¬ pic.unused ∧ pic.sock ∈ listenSocket then
        let ret := handleReceive doEcho (ios p)
        let pic := pic.served ret
        (receiveObjects doEcho listenSocket ios ps (Function.update heap p (some pic))).map fun r =>
          (r.1, r.2 + if ret ≠ 0 ∧ pic.exceeds then 1 else 0)
      else receiveObjects doEcho listenSocket ios ps heap

/-- The inner loop of the second: the client it breaks at, with the `offset` counted so far. -/
def scan (heap : Heap) : List PInClient → ℕ → Option (Option (PInClient × InClient × ℕ))
  | [], _ => some none
  | p :: ps, offset =>
    match heap p with
    | none => none
    | some pic =>
      if pic.unused then scan heap ps offset
      else if pic.exceeds then some (some (p, pic, offset))
      else scan heap ps (offset + 1)

/-- One turn of the second loop. -/
def Clients.eraseFailed (s : Clients) : Option Clients :=
  match scan s.heap s.vInClients 0 with
  | none => none
  | some none => some s
  | some (some (p, pic, offset)) =>
    some {
      heap := Function.update s.heap p none
      vInClients := s.vInClients.eraseIdx offset
      sclosed := s.sclosed ++ [pic.sock]
      deleted := s.deleted ++ [p] }

/-- The second loop. -/
def Clients.eraseTurns : ℕ → Clients → Option Clients
  | 0, s => some s
  | n + 1, s => s.eraseFailed.bind (Clients.eraseTurns n)

def Clients.processClients (doEcho : Bool) (listenSocket : Finset ℤ) (ios : PInClient → Io)
    (s : Clients) : Option Clients :=
  (receiveObjects doEcho listenSocket ios s.vInClients s.heap).bind fun r =>
    Clients.eraseTurns r.2 { s with heap := r.1 }

structure Clients.Valid (s : Clients) : Prop where
  nodup : s.vInClients.Nodup
  live : ∀ p ∈ s.vInClients, (s.heap p).isSome

def tooMany (heap : Heap) (p : PInClient) : Bool := (heap p).any fun pic => pic.exceeds

def passedOver (heap : Heap) (p : PInClient) : Bool := (heap p).any fun pic => pic.unused

/-- A ready client at its limit whose `handle_receive` fails. -/
def fails (doEcho : Bool) (listenSocket : Finset ℤ) (ios : PInClient → Io) (heap : Heap)
    (p : PInClient) : Bool :=
  (heap p).any fun pic => ¬ pic.unused ∧ pic.sock ∈ listenSocket ∧
    handleReceive doEcho (ios p) ≠ 0 ∧ maxRwErrors ≤ pic.hadRwError

section
variable {heap heap₁ : Heap} {ps l r : List PInClient} {p : PInClient} {pic : InClient}
  {s t : Clients} {n : ℕ}

/-- The scan finds the first client with too many errors, and counts those before it that are not
passed over. -/
theorem scan_found (hlive : ∀ q ∈ l, (heap q).isSome) (hnone : ∀ q ∈ l, tooMany heap q = false)
    (hp : heap p = some pic) (hused : ¬ pic.unused) (hexc : pic.exceeds) (offset : ℕ) :
    scan heap (l ++ p :: r) offset =
      some (some (p, pic, offset + l.countP fun q => !passedOver heap q)) := by
  induction l generalizing offset with
  | nil =>
    rw [List.nil_append, scan]
    simp only [hp, if_neg hused, if_pos hexc]
    rfl
  | cons q l ih =>
    have hlive' : ∀ x ∈ l, (heap x).isSome := fun x hx => hlive x (List.mem_cons_of_mem _ hx)
    have hnone' : ∀ x ∈ l, tooMany heap x = false := fun x hx => hnone x (List.mem_cons_of_mem _ hx)
    obtain ⟨pic', hpic'⟩ := Option.isSome_iff_exists.mp (hlive q List.mem_cons_self)
    have hq : ¬ pic'.exceeds := by simpa [tooMany, hpic'] using hnone q List.mem_cons_self
    rw [List.cons_append, scan, List.countP_cons]
    simp only [hpic', if_neg hq]
    by_cases hu : pic'.unused
    · rw [if_pos hu, ih hlive' hnone']
      simp [passedOver, hpic', hu]
    · rw [if_neg hu, ih hlive' hnone']
      simp [passedOver, hpic', hu]
      omega

/-- The list in the second loop: what is left has not changed since the first loop. -/
structure Clients.Erasing (heap₁ : Heap) (s : Clients) : Prop where
  nodup : s.vInClients.Nodup
  agrees : ∀ p ∈ s.vInClients, s.heap p = heap₁ p
  live : ∀ p ∈ s.vInClients, (heap₁ p).isSome
  used : ∀ p ∈ s.vInClients, tooMany heap₁ p = true → passedOver heap₁ p = false

theorem tooMany_agrees (h : s.Erasing heap₁) {q : PInClient} (hq : q ∈ s.vInClients) :
    tooMany s.heap q = tooMany heap₁ q := by
  unfold tooMany
  rw [h.agrees q hq]

/-- The list splits at the first client with too many errors, and one turn closes and deletes
that client. -/
theorem Clients.Erasing.turn (h : s.Erasing heap₁)
    (hn : s.vInClients.countP (tooMany heap₁) = n + 1) :
    ∃ l p r pic, s.vInClients = l ++ p :: r ∧ heap₁ p = some pic ∧
      (∀ q ∈ l, tooMany heap₁ q = false) ∧ tooMany heap₁ p = true ∧
      r.countP (tooMany heap₁) = n ∧
      s.eraseFailed = some {
        heap := Function.update s.heap p none
        vInClients := (l ++ p :: r).eraseIdx (l.countP fun q => !passedOver heap₁ q)
        sclosed := s.sclosed ++ [pic.sock]
        deleted := s.deleted ++ [p] } := by
  have hsome : (s.vInClients.find? (tooMany heap₁)).isSome := by
    rw [List.find?_isSome, ← List.countP_pos_iff]
    omega
  obtain ⟨p, hp⟩ := Option.isSome_iff_exists.mp hsome
  obtain ⟨hmany, l, r, hsplit, hnone⟩ := List.find?_eq_some_iff_append.mp hp
  have hnone' : ∀ q ∈ l, tooMany heap₁ q = false := fun q hq => by simpa using hnone q hq
  have hmem : ∀ q ∈ l ++ p :: r, q ∈ s.vInClients := fun q hq => hsplit ▸ hq
  have hpmem : p ∈ s.vInClients := hmem p (by simp)
  obtain ⟨pic, hpic⟩ := Option.isSome_iff_exists.mp (h.live p hpmem)
  have hexc : pic.exceeds := by simpa [tooMany, hpic] using hmany
  have hused : ¬ pic.unused := by simpa [passedOver, hpic] using h.used p hpmem hmany
  have hcount : r.countP (tooMany heap₁) = n := by
    rw [hsplit, List.countP_append, List.countP_cons, if_pos hmany,
      List.countP_eq_zero.mpr fun q hq => by simp [hnone' q hq]] at hn
    omega
  have hpass : (l.countP fun q => !passedOver s.heap q) =
      l.countP fun q => !passedOver heap₁ q := by
    apply List.countP_congr
    intro q hq
    unfold passedOver
    rw [h.agrees q (hmem q (by simp [hq]))]
  refine ⟨l, p, r, pic, hsplit, hpic, hnone', hmany, hcount, ?_⟩
  unfold Clients.eraseFailed
  rw [hsplit, scan_found _ _ ((h.agrees p hpmem).trans hpic) hused hexc 0, Nat.zero_add, hpass]
  · intro q hq
    rw [h.agrees q (hmem q (by simp [hq]))]
    exact h.live q (hmem q (by simp [hq]))
  · intro q hq
    rw [tooMany_agrees h (hmem q (by simp [hq]))]
    exact hnone' q hq

theorem Clients.Erasing.erased (h : s.Erasing heap₁) (hsub : l.Sublist s.vInClients)
    (hp : p ∉ l) (sclosed : List ℤ) (deleted : List PInClient) :
    Clients.Erasing heap₁ ⟨Function.update s.heap p none, l, sclosed, deleted⟩ where
  nodup := h.nodup.sublist hsub
  agrees := by
    intro q hq
    have hne : q ≠ p := fun he => hp (he ▸ hq)
    exact (Function.update_of_ne hne _ _).trans (h.agrees q (hsub.subset hq))
  live := fun q hq => h.live q (hsub.subset hq)
  used := fun q hq => h.used q (hsub.subset hq)

theorem Clients.Erasing.rest (h : s.Erasing heap₁) (hsplit : s.vInClients = l ++ p :: r)
    (sclosed : List ℤ) (deleted : List PInClient) :
    Clients.Erasing heap₁ ⟨Function.update s.heap p none, l ++ r, sclosed, deleted⟩ := by
  have hnodup := h.nodup
  rw [hsplit] at hnodup
  apply h.erased
  · rw [hsplit]
    exact List.Sublist.append_left (List.sublist_cons_self p r) l
  · exact (List.nodup_middle.mp hnodup).notMem

/-- If no entry before the client is passed over, `offset` is its index. -/
theorem eraseIdx_offset (hl : ∀ q ∈ l, passedOver heap₁ q = false) :
    (l ++ p :: r).eraseIdx (l.countP fun q => !passedOver heap₁ q) = l ++ r := by
  rw [List.countP_eq_length.mpr fun q hq => by simp [hl q hq],
    List.eraseIdx_append_of_length_le le_rfl, Nat.sub_self, List.eraseIdx_cons_zero]

theorem countP_rest (hnone : ∀ q ∈ l, tooMany heap₁ q = false)
    (hcount : r.countP (tooMany heap₁) = n) : (l ++ r).countP (tooMany heap₁) = n := by
  rw [List.countP_append, List.countP_eq_zero.mpr fun q hq => by simp [hnone q hq], Nat.zero_add,
    hcount]

/-- No entry that is passed over stands before a client with too many errors. -/
def CountsRight (heap : Heap) (ps : List PInClient) : Prop :=
  ps.Pairwise fun q p => tooMany heap p = true → passedOver heap q = false

/-- If `offset` counts right, the second loop closes and deletes the clients with too many
errors, and takes them out. -/
theorem eraseTurns_removes (h : s.Erasing heap₁) (hc : CountsRight heap₁ s.vInClients)
    (hn : s.vInClients.countP (tooMany heap₁) = n) :
    ∃ t, Clients.eraseTurns n s = some t ∧ t.Erasing heap₁ ∧
      t.vInClients = s.vInClients.filter (fun p => !tooMany heap₁ p) ∧
      t.deleted = s.deleted ++ s.vInClients.filter (tooMany heap₁) ∧
      t.sclosed = s.sclosed ++
        (s.vInClients.filter (tooMany heap₁)).filterMap fun p => (heap₁ p).map InClient.sock := by
  induction n generalizing s with
  | zero =>
    have hnone : ∀ q ∈ s.vInClients, ¬ tooMany heap₁ q = true := List.countP_eq_zero.mp hn
    have hnil : s.vInClients.filter (tooMany heap₁) = [] := List.filter_eq_nil_iff.mpr hnone
    refine ⟨s, rfl, h, ?_, ?_, ?_⟩
    · exact (List.filter_eq_self.mpr fun q hq => by simp [hnone q hq]).symm
    · rw [hnil, List.append_nil]
    · rw [hnil, List.filterMap_nil, List.append_nil]
  | succ n ih =>
    obtain ⟨l, p, r, pic, hsplit, hpic, hnone, hmany, hcount, hturn⟩ := h.turn hn
    have hl : ∀ q ∈ l, passedOver heap₁ q = false := by
      intro q hq
      rw [CountsRight, hsplit, List.pairwise_append] at hc
      exact hc.2.2 q hq p List.mem_cons_self hmany
    rw [eraseIdx_offset hl] at hturn
    have hc' : CountsRight heap₁ (l ++ r) := by
      rw [hsplit] at hc
      exact hc.sublist (List.Sublist.append_left (List.sublist_cons_self p r) l)
    have hln : l.filter (tooMany heap₁) = [] :=
      List.filter_eq_nil_iff.mpr fun q hq => by simp [hnone q hq]
    obtain ⟨t, ht, herasing, hvec, hdel, hsclosed⟩ := ih
      (h.rest hsplit (s.sclosed ++ [pic.sock]) (s.deleted ++ [p])) hc' (countP_rest hnone hcount)
    refine ⟨t, ?_, herasing, ?_, ?_, ?_⟩
    · rw [Clients.eraseTurns, hturn]
      exact ht
    · rw [hvec, hsplit, List.filter_append, List.filter_append,
        List.filter_cons_of_neg (by simp [hmany])]
    · rw [hdel, hsplit, List.filter_append, List.filter_append, hln,
        List.filter_cons_of_pos hmany, List.append_assoc]
      rfl
    · rw [hsclosed, hsplit, List.filter_append, List.filter_append, hln,
        List.filter_cons_of_pos hmany, List.append_assoc, List.nil_append, List.nil_append,
        List.filterMap_cons, hpic]
      rfl

theorem eraseFailed_sublist (h : s.eraseFailed = some t) :
    t.vInClients.Sublist s.vInClients := by
  unfold Clients.eraseFailed at h
  split at h
  · cases h
  · cases h
    exact .refl _
  · cases h
    exact List.eraseIdx_sublist _ _

theorem eraseTurns_sublist (h : Clients.eraseTurns n s = some t) :
    t.vInClients.Sublist s.vInClients := by
  induction n generalizing s with
  | zero =>
    cases h
    exact .refl _
  | succ n ih =>
    obtain ⟨u, hu, ht⟩ := Option.bind_eq_some_iff.mp h
    exact (ih ht).trans (eraseFailed_sublist hu)

theorem eraseTurns_wrong (h : s.Erasing heap₁) (hc : ¬ CountsRight heap₁ s.vInClients)
    (hn : s.vInClients.countP (tooMany heap₁) = n) (ht : Clients.eraseTurns n s = some t) :
    t.vInClients ≠ s.vInClients.filter fun p => !tooMany heap₁ p := by
  induction n generalizing s with
  | zero =>
    have hnone : ∀ q ∈ s.vInClients, ¬ tooMany heap₁ q = true := List.countP_eq_zero.mp hn
    refine absurd ?_ hc
    apply List.pairwise_iff_forall_sublist.mpr
    intro q p hqp hp
    exact absurd hp (hnone p (hqp.subset (by simp)))
  | succ n ih =>
    obtain ⟨l, p, r, pic, hsplit, hpic, hnone, hmany, hcount, hturn⟩ := h.turn hn
    rw [Clients.eraseTurns, hturn] at ht
    by_cases hl : ∀ q ∈ l, passedOver heap₁ q = false
    · rw [eraseIdx_offset hl] at ht
      have hc' : ¬ CountsRight heap₁ (l ++ r) := by
        intro hlr
        apply hc
        rw [CountsRight, List.pairwise_append] at hlr
        obtain ⟨hl', hr', hbetween⟩ := hlr
        rw [CountsRight, hsplit, List.pairwise_append, List.pairwise_cons]
        refine ⟨hl', ⟨fun x _ _ => h.used p (by rw [hsplit]; simp) hmany, hr'⟩, ?_⟩
        intro q hq x hx
        rcases List.mem_cons.mp hx with rfl | hx
        · exact fun _ => hl q hq
        · exact hbetween q hq x hx
      have hne := ih (h.rest hsplit (s.sclosed ++ [pic.sock]) (s.deleted ++ [p])) hc'
        (countP_rest hnone hcount) ht
      rw [hsplit, List.filter_append, List.filter_cons_of_neg (by simp [hmany]),
        ← List.filter_append]
      exact hne
    · have hlt : (l.countP fun q => !passedOver heap₁ q) < l.length := by
        apply Nat.lt_of_le_of_ne List.countP_le_length
        intro heq
        apply hl
        intro q hq
        simpa using List.countP_eq_length.mp heq q hq
      have hsub := eraseTurns_sublist ht
      intro heq
      generalize (l.countP fun q => !passedOver heap₁ q) = i at hlt hsub
      have hi : i < (l ++ p :: r).length := by
        rw [List.length_append]
        omega
      have hnodup := h.nodup
      rw [hsplit] at hnodup
      have hmem : l[i] ∈ t.vInClients := by
        rw [heq, hsplit]
        have hil : l[i] ∈ l := List.getElem_mem hlt
        exact List.mem_filter.mpr ⟨by simp [hil], by simp [hnone _ hil]⟩
      have hgone : l[i] ∉ (l ++ p :: r).eraseIdx i := by
        have he : (l ++ p :: r)[i] = l[i] := List.getElem_append_left hlt
        rw [← he, ← hnodup.erase_getElem i hi]
        exact hnodup.not_mem_erase
      exact hgone (hsub.subset hmem)

end

def InClient.received (doEcho : Bool) (listenSocket : Finset ℤ) (io : Io) (pic : InClient) :
    InClient :=
  if ¬ pic.unused ∧ pic.sock ∈ listenSocket then pic.served (handleReceive doEcho io) else pic

section
variable {doEcho : Bool} {listenSocket : Finset ℤ} {io : Io} {ios : PInClient → Io} {heap : Heap}
  {ps : List PInClient} {p : PInClient} {pic : InClient} {s : Clients}

theorem InClient.received_sock :
    (pic.received doEcho listenSocket io).sock = pic.sock := by
  unfold received served
  split_ifs <;> rfl

theorem InClient.received_unused :
    (pic.received doEcho listenSocket io).unused ↔ pic.unused := by
  unfold unused
  rw [received_sock]

theorem InClient.received_exceeds (hle : ¬ pic.exceeds) :
    (pic.received doEcho listenSocket io).exceeds ↔ ¬ pic.unused ∧ pic.sock ∈ listenSocket ∧
      handleReceive doEcho io ≠ 0 ∧ maxRwErrors ≤ pic.hadRwError := by
  unfold received served
  by_cases hready : ¬ pic.unused ∧ pic.sock ∈ listenSocket
  · rw [if_pos hready]
    by_cases hret : handleReceive doEcho io ≠ 0
    · rw [if_pos hret]
      simp only [hready, hret, not_false_iff, true_and, exceeds, gt_iff_lt, Int.lt_add_one_iff,
        ne_eq]
    · rw [if_neg hret]
      simp [hle, hret]
  · rw [if_neg hready]
    simp only [hle, false_iff]
    rintro ⟨hu, hmem, -⟩
    exact hready ⟨hu, hmem⟩

theorem receiveObjects_cons (hpic : heap p = some pic) (hle : ¬ pic.exceeds) :
    receiveObjects doEcho listenSocket ios (p :: ps) heap =
      (receiveObjects doEcho listenSocket ios ps
        (Function.update heap p (some (pic.received doEcho listenSocket (ios p))))).map fun r =>
          (r.1, r.2 + if (pic.received doEcho listenSocket (ios p)).exceeds then 1 else 0) := by
  rw [receiveObjects]
  simp only [hpic, InClient.received_exceeds hle]
  by_cases hready : ¬ pic.unused ∧ pic.sock ∈ listenSocket
  · have hexc : handleReceive doEcho (ios p) ≠ 0 ∧
        (pic.served (handleReceive doEcho (ios p))).exceeds ↔
          ¬ pic.unused ∧ pic.sock ∈ listenSocket ∧ handleReceive doEcho (ios p) ≠ 0 ∧
            maxRwErrors ≤ pic.hadRwError := by
      rw [← InClient.received_exceeds hle, InClient.received, if_pos hready, and_iff_right_iff_imp]
      intro hs hz
      rw [hz, InClient.served, if_neg (not_not_intro rfl)] at hs
      exact hle hs
    simp only [if_pos hready, hexc, InClient.received]
  · have hno : ¬ (¬ pic.unused ∧ pic.sock ∈ listenSocket ∧ handleReceive doEcho (ios p) ≠ 0 ∧
        maxRwErrors ≤ pic.hadRwError) := fun hc => hready ⟨hc.1, hc.2.1⟩
    have hsame : Function.update heap p (some pic) = heap := by
      rw [← hpic, Function.update_eq_self]
    simp only [if_neg hready, if_neg hno, InClient.received, hsame, Nat.add_zero, Prod.mk.eta,
      Option.map_id']

/-- The first loop counts the clients that have too many errors after it. -/
theorem receiveObjects_spec (hnodup : ps.Nodup) (hlive : ∀ p ∈ ps, (heap p).isSome)
    (herrors : ∀ p ∈ ps, tooMany heap p = false) :
    ∃ heap₁, receiveObjects doEcho listenSocket ios ps heap =
        some (heap₁, ps.countP (tooMany heap₁)) ∧
      (∀ p ∈ ps, heap₁ p = (heap p).map (InClient.received doEcho listenSocket (ios p))) ∧
      ∀ p, p ∉ ps → heap₁ p = heap p := by
  induction ps generalizing heap with
  | nil => exact ⟨heap, rfl, nofun, fun _ _ => rfl⟩
  | cons p ps ih =>
    obtain ⟨hp, hnodup⟩ := List.nodup_cons.mp hnodup
    obtain ⟨pic, hpic⟩ := Option.isSome_iff_exists.mp (hlive p List.mem_cons_self)
    have hle : ¬ pic.exceeds := by simpa [tooMany, hpic] using herrors p List.mem_cons_self
    rw [receiveObjects_cons hpic hle]
    generalize ho : some (pic.received doEcho listenSocket (ios p)) = o
    have hother : ∀ q ∈ ps, Function.update heap p o q = heap q := by
      intro q hq
      have hne : q ≠ p := fun he => hp (he ▸ hq)
      exact Function.update_of_ne hne _ _
    have hlive' : ∀ q ∈ ps, (Function.update heap p o q).isSome := by
      intro q hq
      rw [hother q hq]
      exact hlive q (List.mem_cons_of_mem _ hq)
    have herrors' : ∀ q ∈ ps, tooMany (Function.update heap p o) q = false := by
      intro q hq
      rw [tooMany, hother q hq]
      exact herrors q (List.mem_cons_of_mem _ hq)
    obtain ⟨heap₁, hr, hin, hout⟩ := ih hnodup hlive' herrors'
    have hpout : heap₁ p = some (pic.received doEcho listenSocket (ios p)) := by
      rw [hout p hp, Function.update_self, ho]
    refine ⟨heap₁, ?_, ?_, ?_⟩
    · rw [hr, List.countP_cons]
      simp [tooMany, hpout]
    · intro q hq
      rcases List.mem_cons.mp hq with rfl | hq
      · rw [hpout, hpic]
        rfl
      · rw [hin q hq, hother q hq]
    · intro q hq
      rw [List.mem_cons, not_or] at hq
      rw [hout q hq.2, Function.update_of_ne hq.1]

theorem tooMany_received {heap₁ : Heap} (herr : tooMany heap p = false)
    (hp : heap₁ p = (heap p).map (InClient.received doEcho listenSocket (ios p))) :
    tooMany heap₁ p = fails doEcho listenSocket ios heap p ∧
      passedOver heap₁ p = passedOver heap p := by
  unfold tooMany fails passedOver at *
  rw [hp]
  cases hpic : heap p with
  | none => exact ⟨rfl, rfl⟩
  | some pic =>
    have hle : ¬ pic.exceeds := by simpa [hpic] using herr
    simp only [Option.map_some, Option.any_some, InClient.received_exceeds hle,
      InClient.received_unused, and_self]

end

/-- After the first loop of `process_clients` the client at `p` has too many errors. -/
def Clients.comesToExceed (doEcho : Bool) (listenSocket : Finset ℤ) (ios : PInClient → Io)
    (s : Clients) (p : PInClient) : Bool :=
  (receiveObjects doEcho listenSocket ios s.vInClients s.heap).any fun r => tooMany r.1 p

section
variable {doEcho : Bool} {listenSocket : Finset ℤ} {ios : PInClient → Io} {s : Clients}

theorem processClients_spec (hs : s.Valid) (herrors : ∀ p ∈ s.vInClients, tooMany s.heap p = false) :
    ∃ heap₁, s.processClients doEcho listenSocket ios =
        Clients.eraseTurns (s.vInClients.countP (tooMany heap₁)) { s with heap := heap₁ } ∧
      s.comesToExceed doEcho listenSocket ios = tooMany heap₁ ∧
      Clients.Erasing heap₁ { s with heap := heap₁ } ∧
      ∀ p ∈ s.vInClients,
        heap₁ p = (s.heap p).map (InClient.received doEcho listenSocket (ios p)) := by
  obtain ⟨heap₁, hr, hin, -⟩ :=
    @receiveObjects_spec doEcho listenSocket ios _ _ hs.nodup hs.live herrors
  refine ⟨heap₁, ?_, ?_, ?_, hin⟩
  · rw [Clients.processClients, hr]
    rfl
  · funext p
    rw [Clients.comesToExceed, hr]
    rfl
  · constructor
    · exact hs.nodup
    · exact fun _ _ => rfl
    · intro p hp
      rw [hin p hp, Option.isSome_map]
      exact hs.live p hp
    · intro p hp hmany
      obtain ⟨hfails, hpassed⟩ := tooMany_received (herrors p hp) (hin p hp)
      obtain ⟨pic, hpic⟩ := Option.isSome_iff_exists.mp (hs.live p hp)
      rw [hfails, fails, hpic] at hmany
      rw [hpassed, passedOver, hpic]
      have hused : ¬ pic.unused := (of_decide_eq_true hmany).1
      simpa using hused

end

/-- `process_clients` closes, deletes and takes out the clients with too many errors, and nothing
else, exactly if no entry that it passes over stands before one that fails. -/
theorem processClients_removes_iff (doEcho : Bool) (listenSocket : Finset ℤ) (ios : PInClient → Io)
    (s : Clients) (hs : s.Valid) (herrors : ∀ p ∈ s.vInClients, tooMany s.heap p = false) :
    (∃ t, s.processClients doEcho listenSocket ios = some t ∧
      t.vInClients =
        s.vInClients.filter (fun p => !s.comesToExceed doEcho listenSocket ios p) ∧
      t.deleted.Perm
        (s.deleted ++ s.vInClients.filter (s.comesToExceed doEcho listenSocket ios)) ∧
      t.sclosed.Perm
        (s.sclosed ++ (s.vInClients.filter (s.comesToExceed doEcho listenSocket ios)).filterMap
          fun p => (s.heap p).map InClient.sock)) ↔
      s.vInClients.Pairwise fun q p =>
        fails doEcho listenSocket ios s.heap p = true → passedOver s.heap q = false := by
  obtain ⟨heap₁, hrun, hexc, herasing, hin⟩ :=
    @processClients_spec doEcho listenSocket ios s hs herrors
  have hcond : (s.vInClients.Pairwise fun q p =>
      fails doEcho listenSocket ios s.heap p = true → passedOver s.heap q = false) ↔
        CountsRight heap₁ s.vInClients := by
    apply List.Pairwise.iff_of_mem
    intro q p hq hp
    rw [(tooMany_received (herrors p hp) (hin p hp)).1,
      (tooMany_received (herrors q hq) (hin q hq)).2]
  have hsock : ((s.vInClients.filter (tooMany heap₁)).filterMap fun p =>
      (heap₁ p).map InClient.sock) =
        (s.vInClients.filter (tooMany heap₁)).filterMap fun p => (s.heap p).map InClient.sock := by
    apply List.filterMap_congr
    intro p hp
    rw [hin p (List.mem_filter.mp hp).1, Option.map_map]
    congr 1
    funext pic
    exact InClient.received_sock
  rw [hexc, hrun, hcond]
  constructor
  · rintro ⟨t, ht, hvec, -, -⟩
    by_contra hc
    exact eraseTurns_wrong herasing hc rfl ht hvec
  · intro hc
    obtain ⟨t, ht, -, hvec, hdel, hsclosed⟩ := eraseTurns_removes herasing hc rfl
    refine ⟨t, ht, hvec, ?_, ?_⟩
    · rw [hdel]
    · rw [hsclosed, hsock]

/-- A client at its limit whose connection is closed, and behind it an entry that is passed over. -/
def unusedLast : Clients where
  heap := fun p => if p = 0 then some ⟨0, 0⟩ else if p = 1 then some ⟨5, 3⟩ else none
  vInClients := [1, 0]
  sclosed := []
  deleted := []

/-- The client is closed, deleted and taken out. -/
theorem processClients_removes_sample :
    ∃ t, unusedLast.processClients true {5} (fun _ => ⟨.closed, [], .failed⟩) = some t ∧
      t.vInClients = [0] ∧ t.deleted.Perm [1] ∧ t.sclosed.Perm [5] := by
  have hcond : unusedLast.vInClients.Pairwise fun q p =>
      fails true {5} (fun _ => ⟨.closed, [], .failed⟩) unusedLast.heap p = true →
        passedOver unusedLast.heap q = false := by decide
  have hgone : unusedLast.vInClients.filter
      (unusedLast.comesToExceed true {5} fun _ => ⟨.closed, [], .failed⟩) = [1] := by decide
  obtain ⟨t, ht, hvec, hdel, hsclosed⟩ :=
    (processClients_removes_iff true {5} _ unusedLast ⟨by decide, by decide⟩ (by decide)).mpr hcond
  rw [hgone] at hdel hsclosed
  exact ⟨t, ht, hvec, hdel, hsclosed⟩

def unusedFirst : Clients := { unusedLast with vInClients := [0, 1] }

/-- The entry that is passed over is taken out, and the pointer to the deleted client stays. -/
theorem processClients_wrong_entry :
    unusedFirst.Valid ∧ (∀ p ∈ unusedFirst.vInClients, tooMany unusedFirst.heap p = false) ∧
      (unusedFirst.processClients true {5} fun _ => ⟨.closed, [], .failed⟩).map
        (fun t => (t.vInClients, t.deleted)) = some ([1], [1]) ∧
      ¬ ∃ t, unusedFirst.processClients true {5} (fun _ => ⟨.closed, [], .failed⟩) = some t ∧
        t.vInClients = unusedFirst.vInClients.filter fun p =>
          !unusedFirst.comesToExceed true {5} (fun _ => ⟨.closed, [], .failed⟩) p := by
  have hrun : (unusedFirst.processClients true {5} fun _ => ⟨.closed, [], .failed⟩).map
      (fun t => (t.vInClients, t.deleted)) = some ([1], [1]) := by decide
  have hkept : (unusedFirst.vInClients.filter fun p =>
      !unusedFirst.comesToExceed true {5} (fun _ => ⟨.closed, [], .failed⟩) p) = [0] := by decide
  refine ⟨⟨by decide, by decide⟩, by decide, hrun, ?_⟩
  rintro ⟨t, ht, hvec⟩
  rw [ht, Option.map_some, Option.some.injEq, Prod.mk.injEq] at hrun
  rw [hkept, hrun.1] at hvec
  exact absurd hvec (by decide)

section
variable {doEcho : Bool} {listenSocket : Finset ℤ} {ios : PInClient → Io} {posIos : ℕ → Io}
  {heap : Heap} {ps : List PInClient} {pics : List InClient} {k : Sockets} {n : ℕ}

/-- On the values that the pointers lead to, `receiveClients` does what the first loop does. -/
theorem receiveClients_values (hvals : ps.map heap = pics.map some)
    (hios : ∀ i p, ps[i]? = some p → posIos i = ios p) :
    (receiveClients doEcho listenSocket pics posIos k).1.map some =
      ps.map fun p => (heap p).map (InClient.received doEcho listenSocket (ios p)) := by
  induction pics generalizing ps posIos k with
  | nil =>
    rw [List.map_nil, List.map_eq_nil_iff] at hvals
    rw [hvals]
    rfl
  | cons pic pics ih =>
    cases ps with
    | nil => cases hvals
    | cons p ps =>
      rw [List.map_cons, List.map_cons, List.cons.injEq] at hvals
      have hios' : ∀ i q, ps[i]? = some q → posIos (i + 1) = ios q := by
        intro i q hq
        exact hios (i + 1) q (by rwa [List.getElem?_cons_succ])
      have hzero : posIos 0 = ios p := hios 0 p (by rw [List.getElem?_cons_zero])
      unfold receiveClients
      rw [List.map_cons, hvals.1, Option.map_some, InClient.received, hzero]
      split_ifs
      · rw [List.map_cons, ih hvals.2 hios']
      · rw [List.map_cons, ih hvals.2 hios']

/-- When no entry is passed over, `eraseClient` takes out those with too many errors. -/
theorem eraseClients_values (hused : ∀ pic ∈ pics, ¬ pic.unused)
    (hn : pics.countP (fun pic => pic.exceeds) = n) :
    (eraseClient^[n] (pics, k)).1 = pics.filter fun pic => ¬ pic.exceeds := by
  induction n generalizing pics k with
  | zero =>
    have hnone := List.countP_eq_zero.mp hn
    exact (List.filter_eq_self.mpr fun pic hpic => by simpa using hnone pic hpic).symm
  | succ n ih =>
    have hsome : (pics.find? fun pic => pic.exceeds).isSome := by
      rw [List.find?_isSome, ← List.countP_pos_iff]
      omega
    obtain ⟨pic, hpic⟩ := Option.isSome_iff_exists.mp hsome
    obtain ⟨hexc, l, r, rfl, hnone⟩ := List.find?_eq_some_iff_append.mp hpic
    have hexc' : pic.exceeds := of_decide_eq_true hexc
    have hl : ∀ x ∈ l, ¬ x.exceeds := fun x hx => by simpa using hnone x hx
    have hfind : findExceeding (l ++ pic :: r) = some (pic, l.length, l.length) :=
      findExceeding_append (fun x hx => ⟨hused x (by simp [hx]), hl x hx⟩)
        (hused pic (by simp)) hexc'
    have hturn : (eraseClient (l ++ pic :: r, k)).1 = l ++ r := by
      unfold eraseClient
      dsimp only
      rw [hfind]
      dsimp only
      rw [List.eraseIdx_set_eq, List.eraseIdx_append_of_length_le le_rfl, Nat.sub_self,
        List.eraseIdx_cons_zero]
    have hcount : (l ++ r).countP (fun pic => pic.exceeds) = n := by
      rw [List.countP_append, List.countP_cons, if_pos hexc] at hn
      rw [List.countP_append]
      omega
    have hused' : ∀ x ∈ l ++ r, ¬ x.unused := by
      intro x hx
      rcases List.mem_append.mp hx with hx | hx
      · exact hused x (List.mem_append_left _ hx)
      · exact hused x (List.mem_append_right _ (List.mem_cons_of_mem _ hx))
    rw [Function.iterate_succ_apply, ← Prod.mk.eta (p := eraseClient (l ++ pic :: r, k)), hturn,
      ih hused' hcount, List.filter_append, List.filter_append,
      List.filter_cons_of_neg (by simpa using hexc')]

end

/-- In a reachable state of the server no entry is passed over: `process_clients`, run on objects
that hold the entries, meets no deleted object and leaves objects that hold what
`processClients` leaves. -/
theorem Server.Inv.processClients_objects {s : Server} (hs : s.Inv) {o : Clients} (ho : o.Valid)
    (hvals : o.vInClients.map o.heap = s.vInClients.map some) (listenSocket : Finset ℤ)
    {ios : PInClient → Io} {posIos : ℕ → Io}
    (hios : ∀ i p, o.vInClients[i]? = some p → posIos i = ios p) :
    ∃ t, o.processClients s.doEcho listenSocket ios = some t ∧
      t.vInClients.map t.heap =
        (SimpServer.processClients s.doEcho listenSocket s.vInClients posIos s.sockets).1.map
          some := by
  have hentry : ∀ p ∈ o.vInClients, ∃ pic ∈ s.vInClients, o.heap p = some pic := by
    intro p hp
    have hmem : o.heap p ∈ s.vInClients.map some := hvals ▸ List.mem_map_of_mem hp
    obtain ⟨pic, hpic, he⟩ := List.mem_map.mp hmem
    exact ⟨pic, hpic, he.symm⟩
  have herrors : ∀ p ∈ o.vInClients, tooMany o.heap p = false := by
    intro p hp
    obtain ⟨pic, hpic, he⟩ := hentry p hp
    simpa [tooMany, he] using hs.errors pic hpic
  obtain ⟨heap₁, hrun, -, herasing, hin⟩ :=
    @processClients_spec s.doEcho listenSocket ios o ho herrors
  have hused : ∀ p ∈ o.vInClients, passedOver heap₁ p = false := by
    intro p hp
    obtain ⟨pic, hpic, he⟩ := hentry p hp
    rw [(tooMany_received (herrors p hp) (hin p hp)).2, passedOver, he]
    simpa using (hs.registry.used hpic).1
  have hright : CountsRight heap₁ o.vInClients := by
    apply List.pairwise_iff_forall_sublist.mpr
    intro q p hqp _
    exact hused q (hqp.subset (by simp))
  obtain ⟨t, ht, herasing', hvec, -, -⟩ := eraseTurns_removes herasing hright rfl
  obtain ⟨pics, k, hrec, hregistry, -, -⟩ :=
    receiveClients_registry hs.registry hs.errors s.doEcho listenSocket posIos
  have hvals₁ : o.vInClients.map heap₁ = pics.map some := by
    have hv : (receiveClients s.doEcho listenSocket s.vInClients posIos s.sockets).1.map some = _ :=
      receiveClients_values hvals hios
    rw [hrec] at hv
    rw [hv]
    exact List.map_congr_left hin
  have hused' : ∀ pic ∈ pics, ¬ pic.unused := fun pic hpic => (hregistry.used hpic).1
  refine ⟨t, hrun.trans ht, ?_⟩
  have hagrees : t.vInClients.map t.heap = t.vInClients.map heap₁ :=
    List.map_congr_left herasing'.agrees
  have hfilter : (o.vInClients.filter fun p => !tooMany heap₁ p).map heap₁ =
      (pics.filter fun pic => ¬ pic.exceeds).map some := by
    let q : Option InClient → Bool := fun x => !x.any fun pic => pic.exceeds
    change (o.vInClients.filter (q ∘ heap₁)).map heap₁ = _
    rw [← List.filter_map, hvals₁, List.filter_map]
    congr 1
    apply List.filter_congr
    intro pic _
    simp [q]
  rw [hagrees, hvec, SimpServer.processClients, hrec]
  dsimp only
  rw [eraseClients_values hused' rfl, hfilter]

end TcpTests.SimpServer
