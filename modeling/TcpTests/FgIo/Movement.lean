import Mathlib.Algebra.Order.Field.Rat
import Mathlib.Data.Rat.Cast.Order
import TcpTests.Lib.Bits
import TcpTests.FgIo.Packet

/-! What `test_server` reports of the records that it reads: the first position, and from then on
whether the sender has moved. The doubles are exact numbers. -/
namespace TcpTests.FgIo
open Lib Net

/-- The number that a double is, unless it is an infinity or not a number. -/
def doubleValue (w : BitVec 64) : Option ℚ :=
  let exponent := (w.extractLsb' 52 11).toNat
  let fraction := (w.extractLsb' 0 52).toNat
  let sign : ℚ := if w.msb then -1 else 1
  if exponent = 2047 then none
  else if exponent = 0 then some (sign * fraction / 2 ^ 1074)
  else some (sign * (2 ^ 52 + fraction) * 2 ^ exponent / 2 ^ 1075)

/-- The members of an `FGNetFDM` that are looked at, in radians and metres. -/
structure Position where
  latitude : ℚ
  longitude : ℚ
  altitude : ℚ
  deriving DecidableEq, Repr

/-- The position in a record. A value that is not a number is `none`. -/
def position (h : Endian) (m : Mem) (net : ℕ) : Option Position := do
  let latitude ← doubleValue (loadLong h m (net + Member.offset .latitude))
  let longitude ← doubleValue (loadLong h m (net + Member.offset .longitude))
  let altitude ← doubleValue (loadLong h m (net + Member.offset .altitude))
  some ⟨latitude, longitude, altitude⟩

/-- The distance and the first azimuth of `geo_inverse_wgs_84`. -/
structure Inverse where
  s : ℚ
  az1 : ℚ
  deriving DecidableEq, Repr

/-- What comes from the simgear library: `SG_EPSILON`, `SG_METER_TO_FEET` and
`geo_inverse_wgs_84`. -/
structure Simgear where
  epsilon : ℚ
  meterToFeet : ℚ
  geoInverseWgs84 : ℚ → ℚ → ℚ → ℚ → Inverse

/-- `SG_RADIANS_TO_DEGREES` -/
def radiansToDegrees : ℚ := 180.0 / 3.1415926535

/-- The texts about a record, with the numbers in them. -/
inductive Report
  | first (lat lon alt : ℚ)
  | samePosition
  | moved (lat lon alt : ℚ) (fromLast fromFirst : Inverse)
  deriving DecidableEq, Repr

/-- The static data of `test_server`. -/
structure Motion where
  mem : Mem
  lastBuf : Position
  netCount : ℕ
  firstLat : ℚ
  firstLon : ℚ
  firstAlt : ℚ

def Motion.netFdm (sg : Simgear) (s : Motion) (pn : Position) : Motion × Report :=
  let clat := pn.latitude * radiansToDegrees
  let clon := pn.longitude * radiansToDegrees
  let calt := pn.altitude * sg.meterToFeet
  let s' := { s with lastBuf := pn, netCount := s.netCount + 1 }
  if s.netCount ≠ 0 then
    if |pn.latitude - s.lastBuf.latitude| > sg.epsilon ∨
        |pn.longitude - s.lastBuf.longitude| > sg.epsilon ∨
        |pn.altitude - s.lastBuf.altitude| > sg.epsilon then (s', .samePosition)
    else
      let llat := s.lastBuf.latitude * radiansToDegrees
      let llon := s.lastBuf.longitude * radiansToDegrees
      (s', .moved clat clon calt (sg.geoInverseWgs84 llat llon clat clon)
        (sg.geoInverseWgs84 s.firstLat s.firstLon clat clon))
  else ({ s' with firstLat := clat, firstLon := clon, firstAlt := calt }, .first clat clon calt)

section
variable (sg : Simgear) (h : Endian) (netByteOrder : Bool) (pbuf1 : ℕ)

/-- A call of `test_server`, with the bytes that `read` gives: none after a timeout or an error.
A record with a value that is not a number is `none`. -/
def Motion.read (s : Motion) (packet : List Byte) : Option (Motion × Option Report) :=
  match testServer h netByteOrder pbuf1 s.mem packet with
  | none => some ({ s with mem := s.mem.write pbuf1 (List.replicate blen 0) }, none)
  | some (c, false) => some ({ s with mem := c.mem }, none)
  | some (c, true) => do
    let pn ← position h c.mem pbuf1
    let (s, r) := Motion.netFdm sg { s with mem := c.mem } pn
    some (s, some r)

def Motion.reads (s : Motion) : List (List Byte) → Option (List Report)
  | [] => some []
  | packet :: packets => do
    let (s, r) ← s.read sg h netByteOrder pbuf1 packet
    let rs ← Motion.reads s packets
    some (r.toList ++ rs)

end

/-- Before the first call `last_buf` and `net_count` are zero. -/
def Motion.start (mem : Mem) : Motion := ⟨mem, ⟨0, 0, 0⟩, 0, 0, 0, 0⟩

/-- The order of the bytes on the wire, as the program takes it. -/
def wireOrder (h : Endian) (netByteOrder : Bool) : Endian := if netByteOrder then .big else h

/-- A packet that is a record: the right length and version. -/
def ValidPacket (h : Endian) (netByteOrder : Bool) (packet : List Byte) : Prop :=
  packet.length = sizeofNetFdm ∧
    loadWord (wireOrder h netByteOrder) (carried packet) (Member.offset .version) = fgNetFdmVersion

instance (h : Endian) (netByteOrder : Bool) : DecidablePred (ValidPacket h netByteOrder) :=
  fun _ => inferInstanceAs (Decidable (_ ∧ _))

def packetPosition (h : Endian) (netByteOrder : Bool) (packet : List Byte) : Option Position :=
  position (wireOrder h netByteOrder) (carried packet) 0

def positions (h : Endian) (netByteOrder : Bool) (packets : List (List Byte)) : List Position :=
  (packets.filter (ValidPacket h netByteOrder)).filterMap (packetPosition h netByteOrder)

def AllNumbers (h : Endian) (netByteOrder : Bool) (packets : List (List Byte)) : Prop :=
  ∀ packet ∈ packets, ValidPacket h netByteOrder packet →
    (packetPosition h netByteOrder packet).isSome

instance (h : Endian) (netByteOrder : Bool) : DecidablePred (AllNumbers h netByteOrder) :=
  fun packets => inferInstanceAs (Decidable (∀ packet ∈ packets, _ → _))

def Position.Near (sg : Simgear) (p q : Position) : Prop :=
  |q.latitude - p.latitude| ≤ sg.epsilon ∧ |q.longitude - p.longitude| ≤ sg.epsilon ∧
    |q.altitude - p.altitude| ≤ sg.epsilon

/-- A report on a record at `q` after one at `p`: the position is the same one, or else the distance
is the one from `p`. -/
def Report.Correct (sg : Simgear) (p q : Position) (r : Report) : Prop :=
  (r = .samePosition ↔ p.Near sg q) ∧
    (¬ p.Near sg q → ∃ lat lon alt fromFirst, r = .moved lat lon alt
      (sg.geoInverseWgs84 (p.latitude * radiansToDegrees) (p.longitude * radiansToDegrees)
        (q.latitude * radiansToDegrees) (q.longitude * radiansToDegrees)) fromFirst)

/-- One report for each record, and from the second record on a correct one. -/
structure MovementReported (sg : Simgear) (ps : List Position) (rs : List Report) : Prop where
  length : rs.length = ps.length
  report : ∀ k p q r, ps[k]? = some p → ps[k + 1]? = some q → rs[k + 1]? = some r →
    r.Correct sg p q

section
variable {h : Endian} {netByteOrder : Bool} {net pbuf1 off : ℕ} {m m' : Mem} {packet : List Byte}

theorem elementsAt_later {body : List (Swap × Member)}
    (hbody : ∀ p ∈ body, Member.ctorIdx .numEngines < p.2.ctorIdx) (n : ℕ) :
    ∀ e ∈ elementsAt body n, Member.ctorIdx .numEngines < e.member.ctorIdx := by
  intro e he
  obtain ⟨p, hp, rfl⟩ := List.mem_map.mp he
  exact hbody p hp

theorem rounds_later {body : List (Swap × Member)}
    (hbody : ∀ p ∈ body, Member.ctorIdx .numEngines < p.2.ctorIdx) (n : ℕ) :
    ∀ e ∈ (List.range n).flatMap (elementsAt body),
      Member.ctorIdx .numEngines < e.member.ctorIdx := by
  intro e he
  obtain ⟨i, -, hi⟩ := List.mem_flatMap.mp he
  exact elementsAt_later hbody i e hi

theorem elements_head (engines tanks wheels : ℕ) :
    ∃ rest, elements engines tanks wheels = elementsAt headStatements 0 ++ rest ∧
      ∀ e ∈ rest, Member.ctorIdx .numEngines < e.member.ctorIdx := by
  refine ⟨(List.range engines).flatMap (elementsAt engineStatements) ++ ([⟨.numTanks, 0⟩] ++
    ((List.range tanks).flatMap (elementsAt tankStatements) ++ ([⟨.numWheels, 0⟩] ++
      ((List.range wheels).flatMap (elementsAt wheelStatements) ++
        elementsAt tailStatements 0)))), ?_, ?_⟩
  · simp only [elements, elementsToWheels, elementsToTanks, List.append_assoc]
  · have hengines := @rounds_later engineStatements (by decide) engines
    have htanks := @rounds_later tankStatements (by decide) tanks
    have hwheels := @rounds_later wheelStatements (by decide) wheels
    have htail := @elementsAt_later tailStatements (by decide) 0
    have hnumTanks : Member.ctorIdx .numEngines < Member.ctorIdx .numTanks := by decide
    have hnumWheels : Member.ctorIdx .numEngines < Member.ctorIdx .numWheels := by decide
    simp only [List.forall_mem_append, List.forall_mem_singleton]
    exact ⟨hengines, hnumTanks, htanks, hnumWheels, hwheels, htail⟩

/-- A member in front of the loops is converted, whatever the counts are. -/
theorem convertNetFdm_head {x : Member} (hx : ⟨x, 0⟩ ∈ elementsAt headStatements 0)
    (hfirst : x.ctorIdx ≤ Member.ctorIdx .numEngines) :
    Mem.read (convertNetFdm h net m).mem (net + x.offset) x.width =
      hostOrder h (m.read (net + x.offset) x.width) := by
  obtain ⟨engines, tanks, wheels, -, -, -, hc⟩ := convertNetFdm_eq h net m
  obtain ⟨rest, hsplit, hrest⟩ := elements_head engines tanks wheels
  have hsub : (elementsAt headStatements 0).Sublist
      (elements fgMaxEngines fgMaxTanks fgMaxWheels) := by
    obtain ⟨more, hmore, -⟩ := elements_head fgMaxEngines fgMaxTanks fgMaxWheels
    rw [hmore]
    exact List.sublist_append_left _ _
  have hvalid : Element.Valid ⟨x, 0⟩ := elements_max_valid _ (hsub.subset hx)
  have hread := read_updates h net m hsub hx
  rw [hc, hsplit, updates_append]
  refine Eq.trans ?_ hread
  apply Mem.read_congr
  intro a hlo hhi
  apply (Element.swap_local h net).updates_outside
  intro e he
  exact hvalid.disjoint_of_lt (lt_of_le_of_lt hfirst (hrest e he)) a ⟨hlo, hhi⟩

theorem loadLong_of_hostOrder {x : ℕ} (hr : m'.read x 8 = hostOrder h (m.read x 8)) :
    loadLong h m' x = loadLong .big m x := by
  cases h with
  | big =>
    have hlow : m'.read x 4 = m.read x 4 := by
      rw [← Mem.read_take m' x 8 4 (by decide), hr]
      exact Mem.read_take m x 8 4 (by decide)
    have hhigh : m'.read (x + 4) 4 = m.read (x + 4) 4 := by
      rw [← Mem.read_drop m' x 8 4 (by decide), hr]
      exact Mem.read_drop m x 8 4 (by decide)
    have hlow' : loadWord .big m' x = beWord m x := loadWord_of_hostOrder hlow
    have hhigh' : loadWord .big m' (x + 4) = beWord m (x + 4) := loadWord_of_hostOrder hhigh
    simp only [loadLong]
    rw [hlow', hhigh']
    rfl
  | little =>
    rw [Mem.read_add m' x 4 4, Mem.read_add m x 4 4, hostOrder, List.reverse_append] at hr
    obtain ⟨hlow, hhigh⟩ := List.append_inj hr (by simp)
    have hlow' : loadWord .little m' x = beWord m (x + 4) := loadWord_of_hostOrder hlow
    have hhigh' : loadWord .little m' (x + 4) = beWord m x := loadWord_of_hostOrder hhigh
    simp only [loadLong]
    rw [hlow', hhigh']
    rfl

/-- The buffer of `test_server` with the bytes of a packet, before the conversion. -/
def filled (m : Mem) (pbuf1 : ℕ) (packet : List Byte) : Mem :=
  Mem.write (m.write pbuf1 (List.replicate blen 0)) pbuf1 (received blen packet)

theorem filled_loadWord (k : Endian) (hoff : off + 4 ≤ blen) :
    loadWord k (filled m pbuf1 packet) (pbuf1 + off) = loadWord k (carried packet) off := by
  cases k <;> simp only [loadWord, beWord, Nat.add_assoc, filled] <;>
    rw [buffer_carried (by omega), buffer_carried (by omega), buffer_carried (by omega),
      buffer_carried (by omega)]

theorem filled_loadLong (k : Endian) (hoff : off + 8 ≤ blen) :
    loadLong k (filled m pbuf1 packet) (pbuf1 + off) = loadLong k (carried packet) off := by
  cases k <;> simp only [loadLong, Nat.add_assoc] <;>
    rw [filled_loadWord _ (by omega), filled_loadWord _ (by omega)]

/-- The record of `test_server` after the conversion, if there is one. -/
def record (h : Endian) (netByteOrder : Bool) (pbuf1 : ℕ) (m : Mem) (packet : List Byte) :
    Conversion :=
  if netByteOrder then convertNetFdm h pbuf1 (filled m pbuf1 packet)
  else ⟨filled m pbuf1 packet, []⟩

theorem record_version :
    loadWord h (record h netByteOrder pbuf1 m packet).mem (pbuf1 + Member.offset .version) =
      loadWord (wireOrder h netByteOrder) (carried packet) (Member.offset .version) := by
  cases netByteOrder with
  | false => exact filled_loadWord h (by decide)
  | true =>
    have hhead := @convertNetFdm_head h pbuf1 (filled m pbuf1 packet) .version (by decide)
      (by decide)
    exact (loadWord_of_hostOrder hhead).trans (filled_loadWord .big (by decide))

theorem record_double {x : Member} (hx : ⟨x, 0⟩ ∈ elementsAt headStatements 0)
    (hfirst : x.ctorIdx ≤ Member.ctorIdx .numEngines) (hwidth : x.width = 8)
    (hoff : x.offset + 8 ≤ blen) :
    loadLong h (record h netByteOrder pbuf1 m packet).mem (pbuf1 + x.offset) =
      loadLong (wireOrder h netByteOrder) (carried packet) x.offset := by
  cases netByteOrder with
  | false => exact filled_loadLong h hoff
  | true =>
    have hhead := @convertNetFdm_head h pbuf1 (filled m pbuf1 packet) x hx hfirst
    rw [hwidth] at hhead
    exact (loadLong_of_hostOrder hhead).trans (filled_loadLong .big hoff)

theorem record_position :
    position h (record h netByteOrder pbuf1 m packet).mem pbuf1 =
      packetPosition h netByteOrder packet := by
  unfold packetPosition position
  rw [record_double (by decide) (by decide) rfl (by decide),
    record_double (by decide) (by decide) rfl (by decide),
    record_double (by decide) (by decide) rfl (by decide)]
  simp only [Nat.zero_add]

theorem testServer_eq (hne : packet ≠ []) :
    testServer h netByteOrder pbuf1 m packet =
      some (record h netByteOrder pbuf1 m packet, decide (ValidPacket h netByteOrder packet)) := by
  have hpos := List.length_pos_iff.mpr hne
  have hlen : (received blen packet).length = min blen packet.length := List.length_take
  have hrlen : 0 < (received blen packet).length := by
    rw [hlen]
    unfold blen
    omega
  have hrun : testServer h netByteOrder pbuf1 m packet =
      some (record h netByteOrder pbuf1 m packet,
        (received blen packet).length == sizeofNetFdm &&
          loadWord h (record h netByteOrder pbuf1 m packet).mem
            (pbuf1 + Member.offset .version) == fgNetFdmVersion) := if_pos hrlen
  have hsize : (received blen packet).length = sizeofNetFdm ↔ packet.length = sizeofNetFdm := by
    rw [hlen, sizeofNetFdm_eq]
    unfold blen
    omega
  rw [hrun, record_version]
  congr 2
  rw [Bool.eq_iff_iff, Bool.and_eq_true, beq_iff_eq, beq_iff_eq, hsize, decide_eq_true_iff]
  rfl

variable {sg : Simgear} {s : Motion} {pn : Position} {packets : List (List Byte)}

theorem Motion.netFdm_lastBuf : (s.netFdm sg pn).1.lastBuf = pn := by
  unfold netFdm
  split_ifs <;> rfl

theorem Motion.netFdm_netCount : (s.netFdm sg pn).1.netCount = s.netCount + 1 := by
  unfold netFdm
  split_ifs <;> rfl

/-- The test goes the wrong way: the position is the same one when a value has changed. -/
theorem Motion.netFdm_report (hs : s.netCount ≠ 0) :
    (s.netFdm sg pn).2 = .samePosition ↔ ¬ s.lastBuf.Near sg pn := by
  have hfar : (|pn.latitude - s.lastBuf.latitude| > sg.epsilon ∨
      |pn.longitude - s.lastBuf.longitude| > sg.epsilon ∨
        |pn.altitude - s.lastBuf.altitude| > sg.epsilon) ↔ ¬ s.lastBuf.Near sg pn := by
    rw [Position.Near, not_and_or, not_and_or, not_le, not_le, not_le]
  unfold netFdm
  dsimp only
  rw [if_pos hs]
  split_ifs with h
  · exact ⟨fun _ => hfar.mp h, fun _ => rfl⟩
  · exact ⟨nofun, fun hn => absurd (hfar.mpr hn) h⟩

theorem Motion.netFdm_not_correct (hs : s.netCount ≠ 0) :
    ¬ (s.netFdm sg pn).2.Correct sg s.lastBuf pn := by
  rintro ⟨hsame, -⟩
  rw [netFdm_report hs] at hsame
  exact iff_not_self hsame.symm

theorem Motion.read_invalid (hp : ¬ ValidPacket h netByteOrder packet) :
    ∃ mem, s.read sg h netByteOrder pbuf1 packet = some ({ s with mem := mem }, none) := by
  by_cases hne : packet = []
  · rw [hne]
    exact ⟨_, rfl⟩
  · unfold read
    rw [testServer_eq hne, decide_eq_false hp]
    exact ⟨_, rfl⟩

theorem Motion.read_valid (hp : ValidPacket h netByteOrder packet)
    (hpn : packetPosition h netByteOrder packet = some pn) :
    ∃ mem, s.read sg h netByteOrder pbuf1 packet =
      some ((Motion.netFdm sg { s with mem := mem } pn).1,
        some (Motion.netFdm sg { s with mem := mem } pn).2) := by
  have hne : packet ≠ [] := by
    intro hnil
    have hlen := hp.1
    rw [hnil, sizeofNetFdm_eq] at hlen
    cases hlen
  unfold read
  rw [testServer_eq hne, decide_eq_true hp]
  dsimp only
  rw [record_position, hpn]
  exact ⟨_, rfl⟩

theorem positions_valid (hp : ValidPacket h netByteOrder packet)
    (hpn : packetPosition h netByteOrder packet = some pn) :
    positions h netByteOrder (packet :: packets) = pn :: positions h netByteOrder packets := by
  rw [positions, List.filter_cons_of_pos (by simpa using hp), List.filterMap_cons_some hpn,
    positions]

theorem positions_invalid (hp : ¬ ValidPacket h netByteOrder packet) :
    positions h netByteOrder (packet :: packets) = positions h netByteOrder packets := by
  rw [positions, List.filter_cons_of_neg (by simpa using hp), positions]

theorem Motion.reads_invalid (hp : ¬ ValidPacket h netByteOrder packet) :
    ∃ mem, s.reads sg h netByteOrder pbuf1 (packet :: packets) =
      Motion.reads sg h netByteOrder pbuf1 { s with mem := mem } packets := by
  obtain ⟨mem, hread⟩ := @read_invalid h netByteOrder pbuf1 packet sg s hp
  refine ⟨mem, ?_⟩
  rw [reads, hread, Option.bind_eq_bind, Option.bind_some]
  dsimp only [Option.toList_none, List.nil_append]
  exact Option.bind_fun_some _

theorem Motion.reads_valid (hp : ValidPacket h netByteOrder packet)
    (hpn : packetPosition h netByteOrder packet = some pn) :
    ∃ mem, s.reads sg h netByteOrder pbuf1 (packet :: packets) =
      ((Motion.netFdm sg { s with mem := mem } pn).1.reads sg h netByteOrder pbuf1 packets).map
        ((Motion.netFdm sg { s with mem := mem } pn).2 :: ·) := by
  obtain ⟨mem, hread⟩ := @read_valid h netByteOrder pbuf1 packet sg s pn hp hpn
  refine ⟨mem, ?_⟩
  rw [reads, hread, Option.bind_eq_bind, Option.bind_some, Option.map_eq_bind]
  rfl

/-- The reports on some positions after the one in `last_buf`: none of them is correct, but that the
first of all records is not judged. -/
def NoneCorrect (sg : Simgear) (s : Motion) (ps : List Position) (rs : List Report) : Prop :=
  ∀ k p q r, (s.lastBuf :: ps)[k]? = some p → ps[k]? = some q → rs[k]? = some r →
    k ≠ 0 ∨ s.netCount ≠ 0 → ¬ r.Correct sg p q

theorem noneCorrect_cons {ps : List Position} {rs : List Report}
    (hrest : NoneCorrect sg (s.netFdm sg pn).1 ps rs) :
    NoneCorrect sg s (pn :: ps) ((s.netFdm sg pn).2 :: rs) := by
  intro k p q r hpk hqk hrk hseen
  cases k with
  | zero =>
    cases hpk
    cases hqk
    cases hrk
    exact Motion.netFdm_not_correct (hseen.resolve_left fun hne => hne rfl)
  | succ k =>
    rw [List.getElem?_cons_succ] at hpk hqk hrk
    apply hrest k p q r _ hqk hrk
    · right
      rw [Motion.netFdm_netCount]
      exact Nat.succ_ne_zero _
    · rw [Motion.netFdm_lastBuf]
      exact hpk

/-- From the second record on no report is a correct one. -/
theorem Motion.reads_reports (hn : AllNumbers h netByteOrder packets) (s : Motion) :
    ∃ rs, s.reads sg h netByteOrder pbuf1 packets = some rs ∧
      rs.length = (positions h netByteOrder packets).length ∧
      rs.length = packets.countP (ValidPacket h netByteOrder) ∧
      NoneCorrect sg s (positions h netByteOrder packets) rs := by
  induction packets generalizing s with
  | nil => exact ⟨[], rfl, rfl, rfl, fun k p q r _ hq => by cases hq⟩
  | cons packet packets ih =>
    have htail : AllNumbers h netByteOrder packets :=
      fun x hx => hn x (List.mem_cons_of_mem packet hx)
    by_cases hp : ValidPacket h netByteOrder packet
    · obtain ⟨pn, hpn⟩ := Option.isSome_iff_exists.mp (hn packet List.mem_cons_self hp)
      obtain ⟨mem, hreads⟩ := @reads_valid h netByteOrder pbuf1 packet sg s pn packets hp hpn
      obtain ⟨rs, hrs, hlen, hcount, hwrong⟩ :=
        ih htail (Motion.netFdm sg { s with mem := mem } pn).1
      rw [hrs] at hreads
      refine ⟨_, hreads, ?_, ?_, ?_⟩
      · rw [positions_valid hp hpn, List.length_cons, List.length_cons, hlen]
      · rw [List.countP_cons_of_pos (by simpa using hp), List.length_cons, hcount]
      · rw [positions_valid hp hpn]
        exact noneCorrect_cons hwrong
    · obtain ⟨mem, hreads⟩ := @reads_invalid h netByteOrder pbuf1 packet sg s packets hp
      obtain ⟨rs, hrs, hlen, hcount, hwrong⟩ := ih htail { s with mem := mem }
      refine ⟨rs, hreads.trans hrs, ?_, ?_, ?_⟩
      · rw [positions_invalid hp, hlen]
      · rw [List.countP_cons_of_neg (by simpa using hp), hcount]
      · rw [positions_invalid hp]
        exact hwrong

theorem NoneCorrect.lt_two {ps : List Position} {rs : List Report} (hwrong : NoneCorrect sg s ps rs)
    (hreported : MovementReported sg ps rs) : rs.length < 2 := by
  by_contra htwo
  have hlen : rs.length = ps.length := hreported.length
  have h0 : 0 < ps.length := by omega
  have h1 : 1 < ps.length := by omega
  have hr : 1 < rs.length := by omega
  have hp := List.getElem?_eq_getElem h0
  have hq := List.getElem?_eq_getElem h1
  have hget := List.getElem?_eq_getElem hr
  apply hwrong 1 _ _ _ hp hq hget (Or.inl one_ne_zero)
  exact hreported.report 0 _ _ _ hp hq hget

end

/-- The reports are right only as long as there is no second record. -/
theorem movement_reported_iff (sg : Simgear) (h : Endian) (netByteOrder : Bool) (pbuf1 : ℕ)
    (mem : Mem) (packets : List (List Byte)) (hn : AllNumbers h netByteOrder packets) :
    ∃ rs, (Motion.start mem).reads sg h netByteOrder pbuf1 packets = some rs ∧
      (MovementReported sg (positions h netByteOrder packets) rs ↔
        packets.countP (ValidPacket h netByteOrder) < 2) := by
  obtain ⟨rs, hrs, hlen, hcount, hwrong⟩ := Motion.reads_reports hn (Motion.start mem)
  refine ⟨rs, hrs, ?_⟩
  rw [← hcount]
  constructor
  · intro hreported
    exact hwrong.lt_two hreported
  · intro hfew
    refine ⟨hlen, ?_⟩
    intro k p q r _ _ hr
    obtain ⟨hk, -⟩ := List.getElem?_eq_some_iff.mp hr
    omega

/-- A record of zeros, in the order of a little-endian host. -/
def zeroRecord : List Byte := 24#8 :: List.replicate 407 0

def Simgear.sample : Simgear where
  epsilon := 1 / 10000000
  meterToFeet := 3.28083989501312335958
  geoInverseWgs84 lat1 lon1 lat2 lon2 := ⟨|lat2 - lat1| + |lon2 - lon1|, 0⟩

/-- The same with an altitude of 1. -/
def climbedRecord : List Byte := (zeroRecord.set 30 0xF0#8).set 31 0x3F#8

/-- Two records and two packets that are none. The second altitude is another one. -/
theorem movement_reported_sample :
    ∃ rs, (Motion.start fun _ => 0).reads .sample .little false 0
        [[1#8], zeroRecord, [], climbedRecord] = some rs ∧
      ¬ MovementReported .sample
        (positions .little false [[1#8], zeroRecord, [], climbedRecord]) rs := by
  have htwo : ¬ [[1#8], zeroRecord, [], climbedRecord].countP (ValidPacket .little false) < 2 := by
    decide +kernel
  obtain ⟨rs, hrs, hiff⟩ := movement_reported_iff .sample .little false 0 (fun _ => 0)
    [[1#8], zeroRecord, [], climbedRecord] (by decide +kernel)
  exact ⟨rs, hrs, fun h => htwo (hiff.mp h)⟩

/-- The same record twice, after which the sender is said to have moved. -/
theorem movement_reported_twice :
    ∃ rs, (Motion.start fun _ => 0).reads .sample .little false 0 [zeroRecord, zeroRecord] =
        some rs ∧
      ¬ MovementReported .sample (positions .little false [zeroRecord, zeroRecord]) rs := by
  have hn : AllNumbers .little false [zeroRecord, zeroRecord] := by decide +kernel
  have htwo : ¬ [zeroRecord, zeroRecord].countP (ValidPacket .little false) < 2 := by
    decide +kernel
  obtain ⟨rs, hrs, -, hcount, hwrong⟩ := Motion.reads_reports hn (Motion.start fun _ => 0)
  refine ⟨rs, hrs, ?_⟩
  intro hreported
  have hlt := hwrong.lt_two hreported
  rw [hcount] at hlt
  exact htwo hlt

end TcpTests.FgIo
