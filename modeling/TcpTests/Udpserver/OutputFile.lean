import TcpTests.Udpserver.Server

/-! What can be read from the output file of `udpserver`. The data may hold anything, also the text
of a line; what keeps the texts apart are the lengths in the lines. -/
namespace TcpTests.Udpserver
open Lib Net Text SimpCommon

section
variable {addr addr' : Word} {tmr tmr' : Tm} {clientaddr clientaddr' : SockaddrIn}
  {rlen rlen' : ℕ} {xs xs' : List Byte}

def lineBody (tmr : Tm) (clientaddr : SockaddrIn) (rlen : ℕ) : List Byte :=
  datetimeStg tmr ++ chars ": UDP Server recvfrom() IP " ++ inetNtoa clientaddr.sinAddr ++
    chars ", port " ++ decimal clientaddr.sinPort.toNat ++ chars ", len " ++ decimal rlen

theorem lf_notMem_decimal (n : ℕ) : 10#8 ∉ decimal n := by
  intro h
  exact absurd (isDecimal_decimal n _ h) (by decide)

theorem lf_notMem_lineBody : 10#8 ∉ lineBody tmr clientaddr rlen := by
  unfold lineBody inetNtoa
  simp only [List.mem_append, lf_notMem_datetimeStg, lf_notMem_decimal, or_false, false_or]
  decide

theorem append_singleton_decimal_inj {a : Byte} {m n : ℕ} (ha : ¬ IsDecimal a)
    (h : xs ++ [a] ++ decimal m = xs' ++ [a] ++ decimal n) : xs = xs' ∧ m = n := by
  rw [List.append_assoc, List.append_assoc, List.singleton_append, List.singleton_append] at h
  exact append_decimal_inj ha ha h

theorem octet_inj (h : ∀ i < 4, octet addr i = octet addr' i) : addr = addr' := by
  have hbyte : ∀ i < 4, addr.extractLsb' (8 * (3 - i)) 8 = addr'.extractLsb' (8 * (3 - i)) 8 :=
    fun i hi => BitVec.eq_of_toNat_eq (h i hi)
  rw [← append_extract addr, ← append_extract addr', hbyte 0 (by decide), hbyte 1 (by decide),
    hbyte 2 (by decide), hbyte 3 (by decide)]

theorem append_singleton_inetNtoa_inj {a : Byte} (ha : ¬ IsDecimal a)
    (h : xs ++ [a] ++ inetNtoa addr = xs' ++ [a] ++ inetNtoa addr') : xs = xs' ∧ addr = addr' := by
  have hdot : chars "." = [charByte '.'] := rfl
  have hnot : ¬ IsDecimal (charByte '.') := by decide
  simp only [inetNtoa, hdot, ← List.append_assoc] at h
  obtain ⟨h, h3⟩ := append_singleton_decimal_inj hnot h
  obtain ⟨h, h2⟩ := append_singleton_decimal_inj hnot h
  obtain ⟨h, h1⟩ := append_singleton_decimal_inj hnot h
  obtain ⟨hxs, h0⟩ := append_singleton_decimal_inj ha h
  refine ⟨hxs, octet_inj fun i hi => ?_⟩
  match i with
  | 0 => exact h0
  | 1 => exact h1
  | 2 => exact h2
  | 3 => exact h3

/-- All that is in a line is known from it. -/
theorem lineBody_inj (h : lineBody tmr clientaddr rlen = lineBody tmr' clientaddr' rlen') :
    datetimeStg tmr = datetimeStg tmr' ∧ clientaddr = clientaddr' ∧ rlen = rlen' := by
  have hlen : chars ", len " = chars ", len" ++ [charByte ' '] := rfl
  have hport : chars ", port " = chars ", port" ++ [charByte ' '] := rfl
  have hip : chars ": UDP Server recvfrom() IP " =
      chars ": UDP Server recvfrom() IP" ++ [charByte ' '] := rfl
  have hspace : ¬ IsDecimal (charByte ' ') := by decide
  simp only [lineBody, hlen, hport, hip, ← List.append_assoc] at h
  obtain ⟨h, hrlen⟩ := append_singleton_decimal_inj hspace h
  obtain ⟨h, hsin⟩ := append_singleton_decimal_inj hspace (List.append_cancel_right h)
  obtain ⟨h, haddr⟩ := append_singleton_inetNtoa_inj hspace (List.append_cancel_right h)
  refine ⟨List.append_cancel_right h, ?_, hrlen⟩
  cases clientaddr
  cases clientaddr'
  exact congrArg₂ SockaddrIn.mk haddr (BitVec.eq_of_toNat_eq hsin)

theorem text_eq (e : Entry) :
    e.text = lineBody e.tmr e.clientaddr e.data.length ++ 10#8 :: e.data := by
  rw [Entry.text, infoLine, ← lineBody, List.append_assoc]
  rfl

/-- What is seen in the file of a datagram. -/
def Entry.shown (e : Entry) : List Byte × SockaddrIn × List Byte :=
  (datetimeStg e.tmr, e.clientaddr, e.data)

theorem texts_inj {entries entries' : List Entry}
    (h : entries.flatMap Entry.text = entries'.flatMap Entry.text) :
    entries.map Entry.shown = entries'.map Entry.shown := by
  have hne : ∀ (e : Entry) es, (e :: es).flatMap Entry.text ≠ [] := by
    intro e es
    rw [List.flatMap_cons, text_eq, List.append_assoc]
    exact List.append_ne_nil_of_right_ne_nil _ (List.cons_ne_nil _ _)
  induction entries generalizing entries' with
  | nil =>
    cases entries' with
    | nil => rfl
    | cons e' es' => exact absurd h.symm (hne e' es')
  | cons e es ih =>
    cases entries' with
    | nil => exact absurd h (hne e es)
    | cons e' es' =>
      rw [List.flatMap_cons, List.flatMap_cons, text_eq, text_eq, List.append_assoc,
        List.append_assoc, List.cons_append, List.cons_append] at h
      have hlf : ∀ (tmr : Tm) (clientaddr : SockaddrIn) (rlen : ℕ),
          ∀ b ∈ lineBody tmr clientaddr rlen, b ≠ 10#8 := by
        rintro tmr clientaddr rlen b hb rfl
        exact lf_notMem_lineBody hb
      obtain ⟨hline, -, hrest⟩ := cut_inj (hlf _ _ _) (hlf _ _ _) (not_not_intro rfl)
        (not_not_intro rfl) h
      obtain ⟨htime, haddr, hlen⟩ := lineBody_inj hline
      obtain ⟨hdata, htexts⟩ := List.append_inj hrest hlen
      rw [List.map_cons, List.map_cons, ih htexts, Entry.shown, Entry.shown, htime, haddr, hdata]

end

/-- Two servers that have not failed and have written the same file received the same datagrams
from the same senders, in the same order and at the same times as shown, whatever the datagrams
hold. -/
theorem outFile_inj (doAnEcho doAnEcho' : Bool) (verbosity verbosity' : ℕ)
    (passes passes' : List Pass) (s s' : Server)
    (hr : runs pass (.start true doAnEcho verbosity) passes = some s)
    (hr' : runs pass (.start true doAnEcho' verbosity') passes' = some s')
    (hiret : s.iret = 0) (hiret' : s'.iret = 0) (hfile : s.poutFile.content = s'.poutFile.content) :
    (passes.filterMap Pass.heard).map Entry.shown =
      (passes'.filterMap Pass.heard).map Entry.shown := by
  have htexts : ∀ (echo : Bool) (verbosity : ℕ) (passes : List Pass) (s : Server),
      runs pass (.start true echo verbosity) passes = some s → s.iret = 0 →
        s.poutFile.content = (passes.filterMap Pass.heard).flatMap Entry.text := by
    intro echo verbosity passes s hr hiret
    have hs := runs_serves (Server.Serves.start true echo verbosity) hr
    rw [List.nil_append] at hs
    exact hs.content rfl hiret
  rw [htexts _ _ _ _ hr hiret, htexts _ _ _ _ hr' hiret'] at hfile
  exact texts_inj hfile

/-- A datagram of two letters, which the disk takes. -/
def wholePass : Pass :=
  ⟨'\x00', .datagram ⟨0x7F000001#32, 3333#16⟩ (chars "hi"), ⟨1, 0, 100, 0, 0, 0⟩, 100, 100, true⟩

theorem outFile_inj_echo :
    ([wholePass].filterMap Pass.heard).map Entry.shown =
      ([{ wholePass with recv := .again }, wholePass].filterMap Pass.heard).map Entry.shown :=
  outFile_inj true false 0 9 [wholePass] [{ wholePass with recv := .again }, wholePass] _ _ rfl rfl
    rfl rfl rfl

end TcpTests.Udpserver
