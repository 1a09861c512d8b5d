import TcpTests.Lib.CString
import TcpTests.Lib.Strtok
import TcpTests.SimpCommon.Options

/-! `respond` of `http_server`: the request line of a message, and what the connection gets. The
connection takes all that is written to it. What the language does not define is `none`. -/
namespace TcpTests.HttpServer
open Lib SimpCommon

/-- The size of `mesg`, and of `path`. -/
def mesgSize : ℕ := 99999

/-- `BYTES` -/
def bytes : ℕ := 1024

def isBlank (c : Byte) : Bool := c = 0x20#8 || c = 0x09#8

def isBlankOrLf (c : Byte) : Bool := isBlank c || c = 0x0A#8

def ok : List Byte := chars "HTTP/1.0 200 OK\n\n"
def badRequest : List Byte := chars "HTTP/1.0 400 Bad Request\n"
def notFound : List Byte := chars "HTTP/1.0 404 Not Found\n"

/-- `fread` asks for one record of `BYTES` bytes and returns how many records it got, which is then
taken for the number of bytes. -/
def sendFile (contents : List Byte) : List Byte :=
  if bytes ≤ contents.length then contents.take 1 ++ sendFile (contents.drop bytes) else []
termination_by contents.length
decreasing_by
  simp only [bytes, List.length_drop] at *
  omega

/-- The request line was read. `fopen` gives what can be read of the file, if it can be opened. -/
def answer (root : List Byte) (fopen : List Byte → Option (List Byte)) (uri version : List Byte) :
    Option (List Byte) :=
  if ¬ chars "HTTP/1.0" <+: version ∧ ¬ chars "HTTP/1.1" <+: version then some badRequest
  else
    let uri := if uri = chars "/" then chars "/index.html" else uri
    if mesgSize < root.length + uri.length + 1 then none
    else
      match fopen (root ++ uri) with
      | some contents => some (ok ++ sendFile contents)
      | none => some notFound

/-- A call of `recv` that fails, or finds the connection closed, receives nothing. -/
def respond (root : List Byte) (fopen : List Byte → Option (List Byte)) (rcvd : List Byte) :
    Option (List Byte) :=
  if rcvd = [] then some []
  else do
    let mesg ← Block.cstr (rcvd ++ List.replicate (mesgSize - rcvd.length) 0)
    let (method, rest) ← strtok isBlankOrLf mesg
    if method = chars "GET" then
      let (uri, rest) ← strtok isBlank rest
      let (version, _) ← strtok isBlankOrLf rest
      answer root fopen uri version
    else some []

section
variable {root rcvd rest contents : List Byte} {fopen : List Byte → Option (List Byte)} {c : Byte}

theorem sendFile_eq (contents : List Byte) : sendFile contents =
    (List.range (contents.length / bytes)).flatMap fun i => (contents.drop (bytes * i)).take 1 := by
  fun_induction sendFile contents with
  | case1 contents hlen ih =>
    have hcount : contents.length / bytes = (contents.length - bytes) / bytes + 1 := by
      rw [← Nat.sub_add_cancel hlen, Nat.add_div_right _ (by decide), Nat.add_sub_cancel]
    rw [ih, hcount, List.range_succ_eq_map, List.flatMap_cons, List.flatMap_map, List.length_drop,
      Nat.mul_zero, List.drop_zero]
    congr 2
    funext i
    rw [Nat.mul_succ, Nat.add_comm, List.drop_drop]
  | case2 contents hlen =>
    rw [Nat.div_eq_of_lt (by omega)]
    rfl

theorem sendFile_length (contents : List Byte) :
    (sendFile contents).length = contents.length / bytes := by
  fun_induction sendFile contents with
  | case1 contents hlen ih =>
    have hpos : 0 < bytes := by decide
    rw [List.length_append, ih, List.length_drop, List.length_take, Nat.min_eq_left (by omega)]
    rw [← Nat.sub_add_cancel hlen, Nat.add_div_right _ hpos, Nat.add_sub_cancel, Nat.add_comm]
  | case2 contents hlen =>
    rw [Nat.div_eq_of_lt (by omega)]
    rfl

/-- Only an empty file is sent as it is. -/
theorem sendFile_eq_self_iff : sendFile contents = contents ↔ contents = [] := by
  constructor
  · intro h
    by_contra hne
    have hpos : 0 < contents.length := List.length_pos_iff.mpr hne
    have hlen := congrArg List.length h
    rw [sendFile_length] at hlen
    have hlt : contents.length / bytes < contents.length := Nat.div_lt_self hpos (by decide)
    omega
  · rintro rfl
    rw [sendFile_eq]
    rfl

/-- A message that leaves room in the buffer and has no NUL in it is read as it is. -/
theorem respond_text (hne : rcvd ≠ []) (hno : 0 ∉ rcvd) (hlen : rcvd.length < mesgSize) :
    respond root fopen rcvd = (strtok isBlankOrLf rcvd).bind fun p =>
      if p.1 = chars "GET" then
        (strtok isBlank p.2).bind fun q =>
          (strtok isBlankOrLf q.2).bind fun r => answer root fopen q.1 r.1
      else some [] := by
  have hroom : mesgSize - rcvd.length = (mesgSize - rcvd.length - 1) + 1 := by omega
  have htext : Block.HasText (rcvd ++ List.replicate (mesgSize - rcvd.length) 0) rcvd := by
    refine ⟨⟨List.replicate (mesgSize - rcvd.length - 1) 0, ?_⟩, hno⟩
    rw [hroom, List.replicate_succ]
    rfl
  rw [respond, if_neg hne, htext.cstr]
  rfl

theorem isPiece_get : IsPiece isBlankOrLf (chars "GET") := ⟨by decide, by decide⟩

theorem respond_get (hno : 0 ∉ rest) (hlen : rest.length + 4 < mesgSize)
    (hc : isBlankOrLf c = true) :
    respond root fopen (chars "GET" ++ c :: rest) = (strtok isBlank rest).bind fun q =>
      (strtok isBlankOrLf q.2).bind fun r => answer root fopen q.1 r.1 := by
  have hc0 : c ≠ 0 := by
    rintro rfl
    exact absurd hc (by decide)
  have hget : (0 : Byte) ∉ chars "GET" := by decide
  have hsize : (chars "GET" ++ c :: rest).length < mesgSize := by
    have h3 : (chars "GET").length = 3 := rfl
    rw [List.length_append, List.length_cons, h3]
    omega
  rw [respond_text (List.append_ne_nil_of_right_ne_nil _ (List.cons_ne_nil _ _)) _ hsize,
    strtok_piece isPiece_get hc]
  · rw [Option.bind_some, if_pos rfl]
  · intro hmem
    rcases List.mem_append.mp hmem with h | h
    · exact hget h
    · rcases List.mem_cons.mp h with h | h
      · exact hc0 h.symm
      · exact hno h

end

end TcpTests.HttpServer
