import Mathlib.Algebra.BigOperators.Group.List.Basic
import Mathlib.Data.BitVec
import Mathlib.Data.Multiset.AddSub
import Mathlib.Data.Multiset.Filter
import Mathlib.Logic.Embedding.Basic
import Mathlib.Tactic.Abel
import TcpTests.Lib.Lists
import TcpTests.Udpclient2.Client
import TcpTests.Udpserver2.Counter

/-! Any number of `udpclient2` and one `udpserver2`, on a network that delivers each datagram
once, in any order. -/
namespace TcpTests.Udpclient2
open Lib Net Udpserver2

/-- The machines of the system: the address that each client is bound to, the byte orders, and
the increments given on the command lines. -/
structure Setup (ι : Type*) where
  addr : ι ↪ SockaddrIn
  server : SockaddrIn
  order : ι → Endian
  serverOrder : Endian
  incAmount : ι → Word

/-- The programs, the requests and the replies in flight, and the requests that the server has
handled. -/
structure System (ι : Type*) where
  clients : ι → Client
  server : Server
  requests : Multiset Datagram
  replies : Multiset Datagram
  handled : List Datagram

inductive Event (ι : Type*)
  | sends (i : ι)
  | handles (d : Datagram)
  | reads (i : ι) (d : Datagram)

variable {ι : Type*}

/-- What is in the memory of the programs at first does not matter. -/
def Setup.start (w : Setup ι) (memory : Mem) (other : SockaddrIn) : System ι where
  clients := fun i => .start (w.order i) (w.incAmount i) memory other
  server := .start memory other
  requests := 0
  replies := 0
  handled := []

/-- A request leaves with the address of its client, and a reply is read at its address only. -/
def Setup.step [DecidableEq ι] (w : Setup ι) (s : System ι) : Event ι → Option (System ι)
  | .sends i =>
    if (s.clients i).pc = .send then
      some { s with
        clients := Function.update s.clients i ((s.clients i).send true)
        requests := ⟨w.addr i, (s.clients i).request (w.order i)⟩ ::ₘ s.requests }
    else none
  | .handles d =>
    if d ∈ s.requests then
      (pass w.serverOrder s.server (.arrives d)).map fun server =>
        { s with
          server := server
          requests := s.requests.erase d
          replies := s.replies + (server.sent.drop s.server.sent.length : Multiset Datagram)
          handled := s.handled ++ [d] }
    else none
  | .reads i d =>
    if (s.clients i).pc = .recv ∧ d ∈ s.replies ∧ d.addr = w.addr i then
      some { s with
        clients := Function.update s.clients i
          ((s.clients i).recv (w.order i) (.datagram w.server d.bytes))
        replies := s.replies.erase d }
    else none

def Setup.increment (w : Setup ι) (i : ι) : Word := Udpclient2.increment (w.incAmount i)

def Setup.request (w : Setup ι) (i : ι) : Datagram := ⟨w.addr i, wordBytes .big (w.increment i)⟩

def Setup.reply (w : Setup ι) (i : ι) (t : Word) : Datagram := ⟨w.addr i, wordBytes .big t⟩

def Setup.isFor (w : Setup ι) (i : ι) (d : Datagram) : Prop := d.addr = w.addr i

instance (w : Setup ι) (i : ι) (d : Datagram) : Decidable (w.isFor i d) :=
  inferInstanceAs (Decidable (_ = _))

/-- A client, with its requests and its replies in flight and all the replies ever sent to it:
nothing is on its way, or a request is, or the reply to it. -/
inductive Setup.Phase (w : Setup ι) (i : ι) (c : Client) :
    Multiset Datagram → Multiset Datagram → List Datagram → Prop
  | idle (hpc : c.pc = .send) : w.Phase i c 0 0 (c.totals.map (w.reply i))
  | requested (hpc : c.pc = .recv) :
      w.Phase i c {w.request i} 0 (c.totals.map (w.reply i))
  | replied (hpc : c.pc = .recv) (t : Word) :
      w.Phase i c 0 {w.reply i t} (c.totals.map (w.reply i) ++ [w.reply i t])

structure Setup.Inv (w : Setup ι) (s : System ι) : Prop where
  running : s.server.running = true
  count : s.server.count = total (s.handled.map .ofDatagram)
  sent : s.server.sent = Udpserver2.replies (s.handled.map .ofDatagram)
  handled : ∀ d ∈ s.handled, ∃ i, d = w.request i
  requests : ∀ d ∈ s.requests, ∃ i, d = w.request i
  incAmount : ∀ i, (s.clients i).incAmount = htonl (w.order i) (w.increment i)
  phase : ∀ i, w.Phase i (s.clients i) (s.requests.filter (w.isFor i))
    (s.replies.filter (w.isFor i)) (s.server.sent.filter (w.isFor i))

section
variable {w : Setup ι} {s t : System ι} {i j : ι} {d : Datagram}

theorem Setup.isFor_request_iff : w.isFor i (w.request j) ↔ j = i := by
  unfold Setup.isFor Setup.request
  exact w.addr.injective.eq_iff

theorem Setup.start_inv (memory : Mem) (other : SockaddrIn) : w.Inv (w.start memory other) where
  running := rfl
  count := rfl
  sent := rfl
  handled := by nofun
  requests := by
    intro d hd
    exact absurd hd (Multiset.notMem_zero d)
  incAmount := fun _ => rfl
  phase := fun _ => .idle rfl

theorem Setup.Phase.totals {c : Client} {requests replies : Multiset Datagram}
    {sent : List Datagram} (hp : w.Phase i c requests replies sent) :
    c.totals.map (w.reply i) <+: sent := by
  cases hp with
  | idle _ | requested _ => exact List.prefix_rfl
  | replied _ t => exact List.prefix_append _ _

section Phase
variable {c : Client} {requests replies : Multiset Datagram} {sent : List Datagram}

theorem Setup.Phase.send (hp : w.Phase i c requests replies sent) (hpc : c.pc = .send) :
    w.Phase i (c.send true) (w.request i ::ₘ requests) replies sent := by
  cases hp with
  | idle _ => exact .requested rfl
  | requested hpc' => cases hpc.symm.trans hpc'
  | replied hpc' t => cases hpc.symm.trans hpc'

/-- A request that is in flight is the only one, and no reply is on its way. -/
theorem Setup.Phase.handle (hp : w.Phase i c (w.request i ::ₘ requests) replies sent) (t : Word) :
    w.Phase i c requests (w.reply i t ::ₘ replies) (sent ++ [w.reply i t]) := by
  generalize hr : w.request i ::ₘ requests = rs at hp
  cases hp with
  | idle _ => exact absurd hr (Multiset.cons_ne_zero)
  | requested hpc =>
    obtain ⟨-, rfl⟩ := (Multiset.singleton_eq_cons_iff _).mp hr.symm
    exact .replied hpc t
  | replied _ _ => exact absurd hr (Multiset.cons_ne_zero)

theorem Setup.Phase.recv (hp : w.Phase i c requests (d ::ₘ replies) sent) (h : Endian)
    (addr : SockaddrIn) :
    w.Phase i (c.recv h (.datagram addr d.bytes)) requests replies sent := by
  generalize hr : d ::ₘ replies = rs at hp
  cases hp with
  | idle _ => exact absurd hr (Multiset.cons_ne_zero)
  | requested _ => exact absurd hr (Multiset.cons_ne_zero)
  | replied hpc t =>
    obtain ⟨rfl, rfl⟩ := (Multiset.singleton_eq_cons_iff _).mp hr.symm
    obtain ⟨hpc', htotals⟩ := Client.recv_total (h := h) (c := c) addr t
    have hsent : c.totals.map (w.reply i) ++ [w.reply i t] =
        (c.recv h (.datagram addr (w.reply i t).bytes)).totals.map (w.reply i) := by
      rw [Setup.reply, htotals, List.map_append]
      rfl
    rw [hsent]
    exact .idle hpc'

end Phase

variable [DecidableEq ι]

theorem Setup.sends_inv (hs : w.Inv s) (h : w.step s (.sends i) = some t) : w.Inv t := by
  simp only [Setup.step] at h
  split_ifs at h with hpc
  cases h
  have hreq : (⟨w.addr i, (s.clients i).request (w.order i)⟩ : Datagram) = w.request i := by
    rw [Client.request, hs.incAmount, htonl, Fgmp.wordBytes_swap32]
    rfl
  rw [hreq]
  refine ⟨hs.running, hs.count, hs.sent, hs.handled, ?_, ?_, ?_⟩
  · intro d hd
    rcases Multiset.mem_cons.mp hd with rfl | hd
    · exact ⟨i, rfl⟩
    · exact hs.requests d hd
  · exact (Function.forall_update_iff _ fun j (c : Client) =>
      c.incAmount = htonl (w.order j) (w.increment j)).mpr ⟨hs.incAmount i, fun j _ => hs.incAmount j⟩
  · refine (Function.forall_update_iff _ fun j c => w.Phase j c
      ((w.request i ::ₘ s.requests).filter (w.isFor j)) (s.replies.filter (w.isFor j))
      (s.server.sent.filter (w.isFor j))).mpr ⟨?_, ?_⟩
    · rw [Multiset.filter_cons_of_pos _ (Setup.isFor_request_iff.mpr rfl)]
      exact (hs.phase i).send hpc
    · intro j hj
      rw [Multiset.filter_cons_of_neg _ fun h => hj (Setup.isFor_request_iff.mp h).symm]
      exact hs.phase j

theorem Setup.handles_inv (hs : w.Inv s) (h : w.step s (.handles d) = some t) : w.Inv t := by
  simp only [Setup.step] at h
  split_ifs at h with hd
  obtain ⟨i, rfl⟩ := hs.requests d hd
  obtain ⟨requests, hrequests⟩ := Multiset.exists_cons_of_mem hd
  obtain ⟨server, hserver, rfl⟩ := Option.map_eq_some_iff.mp h
  have hlen : sizeofInt ≤ (w.request i).bytes.length :=
    (wordBytes_length .big (w.increment i)).ge
  obtain ⟨server', hserver', hrunning, hcount, hsent⟩ :=
    pass_answers (h := w.serverOrder) hs.running hlen
  obtain rfl : server' = server := Option.some.inj (hserver'.symm.trans hserver)
  have htotal : server'.count = total ((s.handled ++ [w.request i]).map .ofDatagram) := by
    rw [hcount, hs.count, List.map_append, List.map_singleton, total_concat]
    rfl
  have hreply : server'.sent = s.server.sent ++ [w.reply i server'.count] := hsent
  have hreplies : s.replies + ([w.reply i server'.count] : Multiset Datagram) =
      w.reply i server'.count ::ₘ s.replies := by
    rw [Multiset.coe_singleton, Multiset.add_comm, Multiset.singleton_add]
  rw [hreply, List.drop_left, hreplies, hrequests, Multiset.erase_cons_head]
  refine ⟨hrunning, htotal, ?_, ?_, ?_, hs.incAmount, ?_⟩
  · rw [hsent, htotal, hs.sent, List.map_append, List.map_singleton, replies_concat]
    rfl
  · intro d hd
    rcases List.mem_append.mp hd with hd | hd
    · exact hs.handled d hd
    · exact ⟨i, List.mem_singleton.mp hd⟩
  · intro d hd
    exact hs.requests d (hrequests ▸ Multiset.mem_cons_of_mem hd)
  · intro j
    have hphase := hs.phase j
    rw [hrequests] at hphase
    simp only [hreply, List.filter_append]
    by_cases hj : j = i
    · subst hj
      rw [Multiset.filter_cons_of_pos _ (Setup.isFor_request_iff.mpr rfl)] at hphase
      have hto : w.isFor j (w.reply j server'.count) := rfl
      rw [Multiset.filter_cons_of_pos _ hto, List.filter_singleton, decide_eq_true hto]
      exact hphase.handle _
    · have hrequest : ¬ w.isFor j (w.request i) :=
        fun h => hj (Setup.isFor_request_iff.mp h).symm
      have hother : ¬ w.isFor j (w.reply i server'.count) := hrequest
      rw [Multiset.filter_cons_of_neg _ hrequest] at hphase
      rw [Multiset.filter_cons_of_neg _ hother, List.filter_singleton, decide_eq_false hother,
        cond_false, List.append_nil]
      exact hphase

theorem Setup.reads_inv (hs : w.Inv s) (h : w.step s (.reads i d) = some t) : w.Inv t := by
  simp only [Setup.step] at h
  split_ifs at h with hd
  cases h
  obtain ⟨hpc, hmem, haddr⟩ := hd
  obtain ⟨replies, hreplies⟩ := Multiset.exists_cons_of_mem hmem
  rw [hreplies, Multiset.erase_cons_head]
  refine ⟨hs.running, hs.count, hs.sent, hs.handled, hs.requests, ?_, ?_⟩
  · refine (Function.forall_update_iff _ fun j (c : Client) =>
      c.incAmount = htonl (w.order j) (w.increment j)).mpr ⟨?_, fun j _ => hs.incAmount j⟩
    rw [Client.recv_incAmount]
    exact hs.incAmount i
  · refine (Function.forall_update_iff _ fun j c => w.Phase j c
      (s.requests.filter (w.isFor j)) (replies.filter (w.isFor j))
      (s.server.sent.filter (w.isFor j))).mpr ⟨?_, ?_⟩
    · have hphase := hs.phase i
      have hto : w.isFor i d := haddr
      rw [hreplies, Multiset.filter_cons_of_pos _ hto] at hphase
      exact hphase.recv _ _
    · intro j hj
      have hphase := hs.phase j
      rw [hreplies, Multiset.filter_cons_of_neg] at hphase
      · exact hphase
      · intro h
        exact hj (w.addr.injective (h.symm.trans haddr))

theorem Setup.step_inv {e : Event ι} (hs : w.Inv s) (h : w.step s e = some t) : w.Inv t := by
  cases e with
  | sends i => exact Setup.sends_inv hs h
  | handles d => exact Setup.handles_inv hs h
  | reads i d => exact Setup.reads_inv hs h

end

section
variable {w : Setup ι} {ds : List Datagram}

theorem Setup.ofDatagram_request (w : Setup ι) (j : ι) :
    Request.ofDatagram (w.request j) = ⟨w.addr j, w.increment j⟩ := by
  have hword : beWord (carried (w.request j).bytes) 0 = w.increment j :=
    beWord_of_read (Mem.read_write_of_length (wordBytes_length .big _))
  rw [Request.ofDatagram, hword]
  rfl

theorem total_cons (r : Request) (rs : List Request) :
    total (r :: rs) = r.increment + total rs := by
  simp [total]

theorem Setup.total_split (hds : ∀ d ∈ ds, ∃ i, d = w.request i) (i : ι) :
    total (ds.map .ofDatagram) = ds.countP (w.isFor i ·) • w.increment i +
      total ((ds.filter (¬ w.isFor i ·)).map .ofDatagram) := by
  induction ds with
  | nil => simp [total]
  | cons d ds ih =>
    obtain ⟨j, rfl⟩ := hds d (by simp)
    have hrest := ih fun d hd => hds d (by simp [hd])
    by_cases hj : j = i
    · subst hj
      have hself : w.isFor j (w.request j) := rfl
      rw [List.map_cons, total_cons, hrest, Setup.ofDatagram_request,
        List.countP_cons_of_pos (by simpa using hself), List.filter_cons_of_neg (by simpa using hself),
        add_nsmul, one_nsmul]
      abel
    · have hother : ¬ w.isFor i (w.request j) := fun h => hj (Setup.isFor_request_iff.mp h)
      rw [List.map_cons, total_cons, hrest, List.countP_cons_of_neg (by simpa using hother),
        List.filter_cons_of_pos (by simpa using hother), List.map_cons, total_cons]
      abel

end

/-- In every run: the replies that the server has sent are one for each request it has handled, in
that order, to the client that sent it and with the sum of the increments so far; and the total
that a client reads after `n` others is the one with its next request, and so counts `n + 1` of its
own increments besides those of the others. -/
theorem agreement [DecidableEq ι] (w : Setup ι) (memory : Mem) (other : SockaddrIn)
    (es : List (Event ι)) (s : System ι) (hr : runs w.step (w.start memory other) es = some s) :
    s.server.sent = replies (s.handled.map .ofDatagram) ∧
    (∀ d ∈ s.handled, ∃ i, d = w.request i) ∧
    ∀ i n, ∀ hn : n < (s.clients i).totals.length, ∃ k, ∃ hk : k < s.handled.length,
      s.handled[k] = w.request i ∧ (s.handled.take k).countP (w.isFor i ·) = n ∧
      (s.clients i).totals[n] = total ((s.handled.take (k + 1)).map .ofDatagram) ∧
      (s.clients i).totals[n] = (n + 1) • w.increment i +
        total (((s.handled.take (k + 1)).filter (¬ w.isFor i ·)).map .ofDatagram) := by
  have hs : w.Inv s :=
    runs_invariant w.Inv (fun _ _ _ => Setup.step_inv) (Setup.start_inv memory other) hr
  refine ⟨hs.sent, hs.handled, ?_⟩
  intro i n hn
  have hprefix := (hs.phase i).totals
  have hn' : n < (s.server.sent.filter (w.isFor i ·)).length :=
    lt_of_lt_of_le (by simpa using hn) hprefix.length_le
  obtain ⟨k, hk, hfor, hcount, hget⟩ := exists_getElem_filter hn'
  have hk' : k < s.handled.length := by simpa [hs.sent] using hk
  have hsent : s.server.sent[k] =
      ⟨s.handled[k].addr, wordBytes .big (total ((s.handled.take (k + 1)).map .ofDatagram))⟩ := by
    simp only [hs.sent, replies_getElem, List.get_eq_getElem, List.getElem_map, List.map_take]
    rfl
  have hread : w.reply i (s.clients i).totals[n] = s.server.sent[k] := by
    rw [← hget, ← hprefix.getElem (by simpa using hn), List.getElem_map]
  rw [hsent] at hread
  obtain ⟨haddr, hbytes⟩ := Datagram.mk.injEq .. ▸ hread
  have htotal : (s.clients i).totals[n] = total ((s.handled.take (k + 1)).map .ofDatagram) :=
    wordBytes_inj.mp hbytes
  have hmine : s.handled[k] = w.request i := by
    obtain ⟨j, hj⟩ := hs.handled s.handled[k] (List.getElem_mem hk')
    rw [hj] at haddr ⊢
    rw [w.addr.injective haddr]
  have hbefore : (s.handled.take k).countP (w.isFor i ·) = n := by
    have hcountP : ∀ l : List Datagram, (l.take k).countP (w.isFor i ·) =
        ((l.map Datagram.addr).take k).countP (· = w.addr i) := by
      intro l
      rw [← List.map_take, List.countP_map]
      rfl
    have haddrs : s.server.sent.map Datagram.addr = s.handled.map Datagram.addr := by
      rw [hs.sent, replies_addr, List.map_map]
      rfl
    rw [← hcount, hcountP, hcountP, haddrs]
  have htake : s.handled.take (k + 1) = s.handled.take k ++ [w.request i] := by
    rw [← hmine, List.take_concat_get']
  refine ⟨k, hk', hmine, hbefore, htotal, ?_⟩
  rw [htotal, Setup.total_split (fun d hd => hs.handled d (List.mem_of_mem_take hd)) i]
  congr 2
  have hself : w.isFor i (w.request i) := rfl
  rw [htake, List.countP_append, hbefore, List.countP_singleton, if_pos (decide_eq_true hself)]

def sampleSetup : Setup Bool where
  addr := ⟨fun i => ⟨if i then 1#32 else 2#32, 7#16⟩, by decide⟩
  server := ⟨9#32, 9#16⟩
  order := fun i => if i then .little else .big
  serverOrder := .little
  incAmount := fun i => if i then 5#32 else 0#32

/-- The request that was sent last is handled first. -/
def sampleRun : List (Event Bool) :=
  [.sends true, .sends false, .handles (sampleSetup.request false),
    .handles (sampleSetup.request true), .reads true (sampleSetup.reply true 15#32)]

theorem agreement_sample :
    ∃ s, runs sampleSetup.step (sampleSetup.start (fun _ => 0) ⟨0#32, 0#16⟩) sampleRun = some s ∧
      s.handled = [sampleSetup.request false, sampleSetup.request true] ∧
      s.server.sent = replies (s.handled.map .ofDatagram) ∧
      (s.clients true).totals = [15#32] := by
  have hrun : (runs sampleSetup.step (sampleSetup.start (fun _ => 0) ⟨0#32, 0#16⟩) sampleRun).map
      (fun s => (s.handled, (s.clients true).totals)) =
      some ([sampleSetup.request false, sampleSetup.request true], [15#32]) := by decide
  obtain ⟨s, hs, hview⟩ := Option.map_eq_some_iff.mp hrun
  rw [Prod.mk.injEq] at hview
  exact ⟨s, hs, hview.1, (agreement sampleSetup _ _ _ s hs).1, hview.2⟩

end TcpTests.Udpclient2
