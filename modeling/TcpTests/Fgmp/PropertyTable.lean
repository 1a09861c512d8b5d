import TcpTests.Lib.Memory

/-! The property table of `fgmpmsg.hxx`. -/
namespace TcpTests.Fgmp
open Lib

inductive FGMPType
  | none
  | alias
  | bool
  | int
  | long
  | float
  | double
  | string
  | unspecified
  | extended
  | vec3d
  | vec4d
  deriving DecidableEq, Repr

structure IdPropertyList where
  id : Word
  type : FGMPType
  deriving DecidableEq, Repr

def sIdPropertyList : List IdPropertyList :=
  [⟨100, .float⟩, ⟨101, .float⟩, ⟨102, .float⟩, ⟨103, .float⟩, ⟨104, .float⟩, ⟨105, .float⟩,
   ⟨106, .float⟩, ⟨107, .float⟩, ⟨108, .string⟩, ⟨109, .float⟩, ⟨110, .float⟩, ⟨111, .float⟩,
   ⟨112, .float⟩, ⟨200, .float⟩, ⟨201, .float⟩, ⟨210, .float⟩, ⟨211, .float⟩, ⟨220, .float⟩,
   ⟨221, .float⟩, ⟨230, .float⟩, ⟨231, .float⟩, ⟨240, .float⟩, ⟨241, .float⟩, ⟨300, .float⟩,
   ⟨301, .float⟩, ⟨302, .float⟩, ⟨310, .float⟩, ⟨311, .float⟩, ⟨312, .float⟩, ⟨320, .float⟩,
   ⟨321, .float⟩, ⟨322, .float⟩, ⟨330, .float⟩, ⟨331, .float⟩, ⟨332, .float⟩, ⟨340, .float⟩,
   ⟨341, .float⟩, ⟨342, .float⟩, ⟨350, .float⟩, ⟨351, .float⟩, ⟨352, .float⟩, ⟨360, .float⟩,
   ⟨361, .float⟩, ⟨362, .float⟩, ⟨370, .float⟩, ⟨371, .float⟩, ⟨372, .float⟩, ⟨380, .float⟩,
   ⟨381, .float⟩, ⟨382, .float⟩, ⟨390, .float⟩, ⟨391, .float⟩, ⟨392, .float⟩, ⟨800, .float⟩,
   ⟨801, .float⟩, ⟨810, .float⟩, ⟨811, .float⟩, ⟨812, .float⟩, ⟨813, .float⟩, ⟨820, .float⟩,
   ⟨821, .float⟩, ⟨822, .float⟩, ⟨823, .float⟩, ⟨830, .float⟩, ⟨831, .float⟩, ⟨900, .float⟩,
   ⟨901, .float⟩, ⟨902, .float⟩, ⟨903, .float⟩, ⟨904, .bool⟩, ⟨905, .string⟩, ⟨906, .float⟩,
   ⟨907, .float⟩, ⟨908, .float⟩, ⟨909, .float⟩, ⟨930, .bool⟩, ⟨931, .float⟩, ⟨932, .bool⟩,
   ⟨933, .float⟩, ⟨934, .float⟩, ⟨935, .float⟩, ⟨1001, .float⟩, ⟨1002, .float⟩, ⟨1003, .float⟩,
   ⟨1004, .float⟩, ⟨1005, .float⟩, ⟨1006, .bool⟩, ⟨1100, .int⟩, ⟨1101, .string⟩, ⟨1200, .string⟩,
   ⟨1201, .int⟩, ⟨1300, .int⟩, ⟨10001, .string⟩, ⟨10002, .string⟩, ⟨10100, .string⟩,
   ⟨10101, .string⟩, ⟨10102, .string⟩, ⟨10103, .string⟩, ⟨10104, .string⟩, ⟨10105, .string⟩,
   ⟨10106, .string⟩, ⟨10107, .string⟩, ⟨10108, .string⟩, ⟨10109, .string⟩, ⟨10110, .string⟩,
   ⟨10111, .string⟩, ⟨10112, .string⟩, ⟨10113, .string⟩, ⟨10114, .string⟩, ⟨10115, .string⟩,
   ⟨10116, .string⟩, ⟨10117, .string⟩, ⟨10118, .string⟩, ⟨10119, .string⟩, ⟨10200, .float⟩,
   ⟨10201, .float⟩, ⟨10202, .float⟩, ⟨10203, .float⟩, ⟨10204, .float⟩, ⟨10205, .float⟩,
   ⟨10206, .float⟩, ⟨10207, .float⟩, ⟨10208, .float⟩, ⟨10209, .float⟩, ⟨10210, .float⟩,
   ⟨10211, .float⟩, ⟨10212, .float⟩, ⟨10213, .float⟩, ⟨10214, .float⟩, ⟨10215, .float⟩,
   ⟨10216, .float⟩, ⟨10217, .float⟩, ⟨10218, .float⟩, ⟨10219, .float⟩, ⟨10300, .int⟩,
   ⟨10301, .int⟩, ⟨10302, .int⟩, ⟨10303, .int⟩, ⟨10304, .int⟩, ⟨10305, .int⟩, ⟨10306, .int⟩,
   ⟨10307, .int⟩, ⟨10308, .int⟩, ⟨10309, .int⟩, ⟨10310, .int⟩, ⟨10311, .int⟩, ⟨10312, .int⟩,
   ⟨10313, .int⟩, ⟨10314, .int⟩, ⟨10315, .int⟩, ⟨10316, .int⟩, ⟨10317, .int⟩, ⟨10318, .int⟩,
   ⟨10319, .int⟩]

/-- Linear search for the first row with the identifier. -/
def findProperty (id : Word) : Option IdPropertyList :=
  sIdPropertyList.find? fun ppl => ppl.id = id

theorem findProperty_id {id : Word} {plist : IdPropertyList} (h : findProperty id = some plist) :
    plist.id = id := by
  simpa using List.find?_some h

theorem findProperty_mem {id : Word} {plist : IdPropertyList} (h : findProperty id = some plist) :
    plist ∈ sIdPropertyList :=
  List.mem_of_find?_eq_some h

theorem findProperty_ne_zero {id : Word} {plist : IdPropertyList}
    (h : findProperty id = some plist) : id ≠ 0#32 := by
  rintro rfl
  have hz : findProperty 0#32 = none := by decide
  rw [hz] at h
  cases h

end TcpTests.Fgmp
