import TcpTests.HttpServer.Respond
import TcpTests.Httpget.Client

/-! `httpget` and `http_server` together: what a request comes to, of which the server reads a
first part only, and what is in the log file of the client at the end. -/
namespace TcpTests.Httpget
open Lib SimpCommon HttpServer

def request (filename : List Byte) : List Byte := sendRequest filename (chars "Wget")

/-- A file name that makes one part of the request line, in a request that fits the buffer. -/
structure Requests (filename : List Byte) : Prop where
  noBlank : ∀ b ∈ filename, isBlank b = false
  noNul : 0 ∉ filename
  fits : (request filename).length + 1 ≤ mxGetBuf + 2

section
variable {root filename s version : List Byte} {fopen : List Byte → Option (List Byte)} {k : ℕ}

/-- What the request has behind the name. -/
private def behind : List Byte := chars "HTTP/1.1\r\nHost: Wget\r\n\r\n"

private theorem request_eq (filename : List Byte) : request filename =
    chars "GET" ++ 0x20#8 :: ((0x2F#8 :: filename) ++ 0x20#8 :: behind) := by
  have hget : chars "GET /" = chars "GET" ++ [0x20#8, 0x2F#8] := rfl
  have htail : chars " HTTP/1.1\r\nHost: " ++ chars "Wget" ++ chars "\r\n\r\n" =
      0x20#8 :: behind := rfl
  rw [request, sendRequest, hget, List.append_assoc, List.append_assoc,
    ← List.append_assoc (chars _) (chars "Wget"), htail]
  simp

theorem request_length (filename : List Byte) :
    (request filename).length = filename.length + 30 := by
  have hget : (chars "GET").length = 3 := rfl
  have hbehind : behind.length = 24 := rfl
  rw [request_eq]
  simp [hget, hbehind]
  omega

private theorem bind_strtok_none {f : List Byte × List Byte → List Byte × List Byte →
    Option (List Byte)} (hs : ∀ b ∈ s, isBlank b = false) :
    ((strtok isBlank s).bind fun q => (strtok isBlankOrLf q.2).bind (f q)) = none := by
  by_cases hnil : s = []
  · rw [hnil]
    rfl
  · rw [strtok_last ⟨hnil, hs⟩]
    rfl

/-- The answer looks at the first part of the version only. -/
theorem answer_version (uri : List Byte) (h : chars "HTTP/1.1" <+: version) :
    answer root fopen uri version = answer root fopen uri (chars "HTTP/1.1") := by
  have hversion : ¬ (¬ chars "HTTP/1.0" <+: version ∧ ¬ chars "HTTP/1.1" <+: version) :=
    fun hbad => hbad.2 h
  have hself : ¬ (¬ chars "HTTP/1.0" <+: chars "HTTP/1.1" ∧
      ¬ chars "HTTP/1.1" <+: chars "HTTP/1.1") :=
    fun hbad => hbad.2 (List.prefix_refl _)
  rw [answer, answer, if_neg hversion, if_neg hself]

private theorem strtok_behind (hk : 8 ≤ k) : ∃ version rest,
    strtok isBlankOrLf (behind.take k) = some (version, rest) ∧ chars "HTTP/1.1" <+: version := by
  have hsplit : behind = chars "HTTP/1.1\r" ++ 0x0A#8 :: chars "Host: Wget\r\n\r\n" := rfl
  have hpiece : IsPiece isBlankOrLf (chars "HTTP/1.1\r") := ⟨by decide, by decide⟩
  have hlen : (chars "HTTP/1.1\r").length = 9 := rfl
  have hpre : chars "HTTP/1.1" <+: chars "HTTP/1.1\r" := by decide
  rcases Nat.lt_or_ge k 10 with hlt | hge
  · obtain rfl | rfl : k = 8 ∨ k = 9 := by omega
    · exact ⟨chars "HTTP/1.1", [], by decide, List.prefix_refl _⟩
    · exact ⟨chars "HTTP/1.1\r", [], by decide, hpre⟩
  · obtain ⟨i, rfl⟩ : ∃ i, k = 9 + (i + 1) := ⟨k - 10, by omega⟩
    refine ⟨chars "HTTP/1.1\r", (chars "Host: Wget\r\n\r\n").take i, ?_, hpre⟩
    rw [hsplit, ← hlen, List.take_length_add_append, List.take_succ_cons]
    exact strtok_piece hpiece (by decide)

private theorem respond_version (hf : Requests filename) (k : ℕ) :
    respond root fopen (chars "GET" ++ 0x20#8 :: ((0x2F#8 :: filename) ++
      0x20#8 :: behind.take k)) = (strtok isBlankOrLf (behind.take k)).bind fun r =>
        answer root fopen (0x2F#8 :: filename) r.1 := by
  have hpiece : IsPiece isBlank (0x2F#8 :: filename) := by
    refine ⟨List.cons_ne_nil _ _, ?_⟩
    intro b hb
    rcases List.mem_cons.mp hb with rfl | hb
    · rfl
    · exact hf.noBlank b hb
  have hbehind : (0 : Byte) ∉ behind := by decide
  have hno : (0 : Byte) ∉ (0x2F#8 :: filename) ++ 0x20#8 :: behind.take k := by
    have htake : (0 : Byte) ∉ behind.take k := fun hmem => hbehind (List.mem_of_mem_take hmem)
    simpa using ⟨hf.noNul, htake⟩
  have hlen : ((0x2F#8 :: filename) ++ 0x20#8 :: behind.take k).length + 4 < mesgSize := by
    have hfits := hf.fits
    have h24 : behind.length = 24 := rfl
    rw [request_length] at hfits
    simp only [List.length_append, List.length_cons, List.length_take, h24, mesgSize, mxGetBuf]
      at hfits ⊢
    omega
  rw [respond_get hno hlen (by decide), strtok_piece hpiece (by decide), Option.bind_some]

private theorem respond_name (hf : Requests filename) {j : ℕ} (hj : j ≤ filename.length + 1) :
    respond root fopen ((request filename).take (4 + j)) = none := by
  have htake : (request filename).take (4 + j) =
      chars "GET" ++ 0x20#8 :: (0x2F#8 :: filename).take j := by
    have hlen : 4 + j = (chars "GET").length + (j + 1) := by
      have h3 : (chars "GET").length = 3 := rfl
      omega
    rw [request_eq, hlen, List.take_length_add_append, List.take_succ_cons,
      List.take_append_of_le_length (by rw [List.length_cons]; exact hj)]
  have hsub : ∀ b ∈ (0x2F#8 :: filename).take j, b = 0x2F#8 ∨ b ∈ filename :=
    fun b hb => List.mem_cons.mp (List.mem_of_mem_take hb)
  have hno : (0 : Byte) ∉ (0x2F#8 :: filename).take j := by
    intro hmem
    rcases hsub 0 hmem with h | h
    · exact absurd h (by decide)
    · exact hf.noNul h
  have hlen : ((0x2F#8 :: filename).take j).length + 4 < mesgSize := by
    have hfits := hf.fits
    rw [request_length] at hfits
    simp only [List.length_take, List.length_cons, mesgSize, mxGetBuf] at hfits ⊢
    omega
  rw [htake, respond_get hno hlen (by decide)]
  refine bind_strtok_none (f := fun q r => answer root fopen q.1 r.1) ?_
  intro b hb
  rcases hsub b hb with rfl | hb
  · rfl
  · exact hf.noBlank b hb

private theorem respond_method (hk : k ≤ 3) :
    respond root fopen ((request filename).take k) = if k < 3 then some [] else none := by
  have htake : (request filename).take k = (chars "GET").take k := by
    rw [request_eq]
    exact List.take_append_of_le_length hk
  have hno : (0 : Byte) ∉ (chars "GET").take k := by
    have hget : (0 : Byte) ∉ chars "GET" := by decide
    exact fun hmem => hget (List.mem_of_mem_take hmem)
  have hlen : ((chars "GET").take k).length < mesgSize := by
    have h3 : (chars "GET").length = 3 := rfl
    rw [List.length_take, h3, mesgSize]
    omega
  rw [htake]
  by_cases hnil : k = 0
  · rw [hnil]
    rfl
  · have hne : (chars "GET").take k ≠ [] := by
      rw [Ne, List.take_eq_nil_iff]
      rintro (h | h)
      · exact hnil h
      · exact absurd h (by decide)
    rw [respond_text hne hno hlen]
    obtain rfl | rfl | rfl : k = 1 ∨ k = 2 ∨ k = 3 := by omega
    · rfl
    · rfl
    · rfl

private theorem respond_line (hf : Requests filename) (i : ℕ) :
    respond root fopen ((request filename).take (filename.length + 6 + i)) =
      (strtok isBlankOrLf (behind.take i)).bind fun r =>
        answer root fopen (0x2F#8 :: filename) r.1 := by
  have htake : (request filename).take (filename.length + 6 + i) =
      chars "GET" ++ 0x20#8 :: ((0x2F#8 :: filename) ++ 0x20#8 :: behind.take i) := by
    have hlen : filename.length + 6 + i =
        (chars "GET").length + ((0x2F#8 :: filename).length + (i + 1) + 1) := by
      have h3 : (chars "GET").length = 3 := rfl
      rw [h3, List.length_cons]
      omega
    rw [request_eq, hlen, List.take_length_add_append, List.take_succ_cons,
      List.take_length_add_append, List.take_succ_cons]
  rw [htake, respond_version hf]

/-- In a part that is too short the server finds nothing, a null pointer or a bad request. -/
theorem respond_short (hf : Requests filename) (hk : k < filename.length + 14) :
    respond root fopen ((request filename).take k) =
      if k < 3 then some [] else if k < filename.length + 7 then none else some badRequest := by
  rcases Nat.lt_or_ge k 4 with hlt | hge
  · rw [respond_method (by omega)]
    split_ifs with hmethod hline <;> first | rfl | omega
  rw [if_neg (by omega)]
  rcases Nat.lt_or_ge k (filename.length + 6) with hname | hname
  · obtain ⟨j, rfl⟩ := Nat.exists_eq_add_of_le hge
    rw [respond_name hf (by omega), if_pos (by omega)]
  obtain ⟨i, rfl⟩ := Nat.exists_eq_add_of_le hname
  rw [respond_line hf]
  by_cases hi : i = 0
  · subst hi
    rw [if_pos (by omega)]
    rfl
  · -- the version is cut, and no other part follows it
    rw [if_neg (by omega)]
    have hcuts : ∀ i < 8, i ≠ 0 →
        strtok isBlankOrLf (behind.take i) = some ((chars "HTTP/1.1").take i, []) ∧
          ¬ chars "HTTP/1.0" <+: (chars "HTTP/1.1").take i ∧
          ¬ chars "HTTP/1.1" <+: (chars "HTTP/1.1").take i := by decide
    obtain ⟨htok, hbad⟩ := hcuts i (by omega) hi
    rw [htok, Option.bind_some]
    exact if_pos hbad

theorem respond_whole (hf : Requests filename) (hk : filename.length + 14 ≤ k) :
    respond root fopen ((request filename).take k) =
      answer root fopen (chars "/" ++ filename) (chars "HTTP/1.1") := by
  obtain ⟨i, rfl⟩ : ∃ i, k = filename.length + 6 + i := ⟨k - (filename.length + 6), by omega⟩
  obtain ⟨version, rest, htok, hversion⟩ := strtok_behind (k := i) (by omega)
  rw [respond_line hf, htok, Option.bind_some, answer_version _ hversion]
  rfl

/-- What the server does with a first part of the request, which is all that one `recv` may give.
It ends at a null pointer if the version is not there, and finds a bad request in one cut short. -/
theorem respond_request_take (root : List Byte) (fopen : List Byte → Option (List Byte)) (k : ℕ)
    (hf : Requests filename) : respond root fopen ((request filename).take k) =
      if k < 3 then some []
      else if k < filename.length + 7 then none
      else if k < filename.length + 14 then some badRequest
      else answer root fopen (chars "/" ++ filename) (chars "HTTP/1.1") := by
  rcases Nat.lt_or_ge k (filename.length + 14) with hshort | hwhole
  · rw [respond_short hf hshort, if_pos hshort]
  · rw [respond_whole hf hwhole, if_neg (by omega), if_neg (by omega), if_neg (by omega)]

/-- The request is cut in the version. -/
theorem respond_request_take_cut :
    respond [] (fun _ => none) ((request (chars "a")).take 14) = some badRequest :=
  respond_request_take [] (fun _ => none) 14 ⟨by decide, by decide, by decide⟩

/-- The file that is opened for a name. -/
def path (root filename : List Byte) : List Byte :=
  root ++ if filename = [] then chars "/index.html" else chars "/" ++ filename

theorem answer_found {contents : List Byte} (hroom : (path root filename).length + 1 ≤ mesgSize)
    (hfile : fopen (path root filename) = some contents) :
    answer root fopen (chars "/" ++ filename) (chars "HTTP/1.1") =
      some (ok ++ sendFile contents) := by
  have hself : ¬ (¬ chars "HTTP/1.0" <+: chars "HTTP/1.1" ∧
      ¬ chars "HTTP/1.1" <+: chars "HTTP/1.1") :=
    fun hbad => hbad.2 (List.prefix_refl _)
  have huri : chars "/" ++ filename = chars "/" ↔ filename = [] := by
    rw [List.append_right_eq_self]
  unfold path at hroom hfile
  rw [List.length_append] at hroom
  simp only [answer, if_neg hself, huri]
  rw [if_neg (by omega), hfile]

/-- A file that the server has comes to be in the log of the client, for some part of the request
and some rounds, only if there is nothing in it. -/
theorem fetch_iff {contents : List Byte} (hf : Requests filename)
    (hroom : (path root filename).length + 1 ≤ mesgSize)
    (hfile : fopen (path root filename) = some contents) :
    (∃ k sent rs g, respond root fopen ((request filename).take k) = some sent ∧
      runs round (Get.start [] sent) rs = some g ∧ g.plog.content = ok ++ contents) ↔
    contents = [] := by
  constructor
  · rintro ⟨k, sent, rs, g, hsent, hrun, hlog⟩
    have hpre : ok ++ contents <+: sent := hlog ▸ content_prefix hrun
    have hok : ok <+: sent := (List.prefix_append _ _).trans hpre
    rcases Nat.lt_or_ge k (filename.length + 14) with hshort | hwhole
    · rw [respond_short hf hshort] at hsent
      split_ifs at hsent <;> cases hsent
      · exact absurd hok (by decide)
      · exact absurd hok (by decide)
    · rw [respond_whole hf hwhole, answer_found hroom hfile] at hsent
      cases hsent
      have hlen := ((List.prefix_append_right_inj _).mp hpre).length_le
      rw [sendFile_length] at hlen
      by_contra hne
      have hlt : contents.length / bytes < contents.length :=
        Nat.div_lt_self (List.length_pos_iff.mpr hne) (by decide)
      omega
  · rintro rfl
    refine ⟨filename.length + 14, ok, [.read 16 true 17], _, ?_, rfl, rfl⟩
    rw [respond_whole hf le_rfl, answer_found hroom hfile, sendFile_eq_self_iff.mpr rfl,
      List.append_nil]

/-- A file of one byte. -/
theorem fetch_iff_one : ¬ ∃ k sent rs g,
    respond [] (fun _ => some [0x61#8]) ((request (chars "a")).take k) = some sent ∧
      runs round (Get.start [] sent) rs = some g ∧ g.plog.content = ok ++ [0x61#8] := by
  intro h
  have hroom : (path [] (chars "a")).length + 1 ≤ mesgSize := by decide
  have hfile : (fun _ => some [0x61#8] : List Byte → Option (List Byte)) (path [] (chars "a")) =
    some [0x61#8] := rfl
  exact List.cons_ne_nil _ _ ((fetch_iff ⟨by decide, by decide, by decide⟩ hroom hfile).mp h)

end

end TcpTests.Httpget
