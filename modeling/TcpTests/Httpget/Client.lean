import TcpTests.Lib.LogFile
import TcpTests.Lib.Machine
import TcpTests.SimpCommon.Options

/-! `httpget`: the request, and the loop of `main` that waits for what the server sends and writes
it to the log file. -/
namespace TcpTests.Httpget
open Lib SimpCommon

/-- `MX_GET_BUF` -/
def mxGetBuf : ℕ := 1024 * 16

def maxTries : ℕ := 10

/-- What `sendRequest` prints into `getReq`, without the NUL. -/
def sendRequest (filename host : List Byte) : List Byte :=
  chars "GET /" ++ filename ++ chars " HTTP/1.1\r\nHost: " ++ host ++ chars "\r\n\r\n"

/-- The state of the loop. `incoming` is what the connection still gives before it is closed. -/
structure Get where
  tries : ℕ
  totalRecv : ℕ
  plog : LogFile Byte
  running : Bool
  iret : ℕ
  incoming : List Byte

/-- The connection is made and the request was sent. `old` is in the log file from before. -/
def Get.start (old incoming : List Byte) : Get where
  tries := 0
  totalRecv := 0
  plog := ⟨old, .null⟩
  running := true
  iret := 0
  incoming := incoming

/-- What `select` comes to and the read behind it, which finds so many bytes and one more unless the
connection ends before; whether the log file can be created, and how much the disk takes. -/
inductive Round
  | selectFailed
  | timeout
  | notSet
  | readFailed
  | read (more : ℕ) (fopened : Bool) (taken : ℕ)

def writeToLog (plog : LogFile Byte) (got : List Byte) (fopened : Bool) (taken : ℕ) :
    LogFile Byte :=
  if got = [] then plog else (plog.ready true fopened).append got taken

def round (g : Get) (r : Round) : Option Get :=
  if !g.running || maxTries ≤ g.tries then none
  else
    let g := { g with tries := g.tries + 1 }
    match r with
    | .selectFailed => some { g with running := false, iret := 1 }
    | .timeout => if 0 < g.totalRecv then some { g with running := false } else some g
    | .notSet => some g
    | .readFailed => some { g with running := false, iret := 1 }
    | .read more fopened taken =>
      let got := g.incoming.take (min (more + 1) mxGetBuf)
      if got.length = 0 then some { g with running := false }
      else
        some { g with
          totalRecv := g.totalRecv + got.length
          plog := writeToLog g.plog got fopened taken
          incoming := g.incoming.drop (min (more + 1) mxGetBuf) }

/-- What was received of the stream is in the log file in order, or a first part of it after the
file was given up. -/
structure Get.Fetches (old whole got : List Byte) (g : Get) : Prop where
  split : whole = got ++ g.incoming
  total : g.totalRecv = got.length
  logs : g.plog.Logs old [] got
  bound : got.length ≤ g.tries * mxGetBuf
  tries : g.tries ≤ maxTries

section
variable {old whole got : List Byte} {g t : Get} {r : Round} {rs : List Round}

theorem Get.Fetches.start (old whole : List Byte) : (Get.start old whole).Fetches old whole [] where
  split := rfl
  total := rfl
  logs := ⟨fun _ => ⟨rfl, rfl⟩, nofun, nofun⟩
  bound := Nat.zero_le _
  tries := Nat.zero_le _

theorem Get.Fetches.idle (hg : g.Fetches old whole got) (htries : g.tries < maxTries)
    (running : Bool) (iret : ℕ) :
    ({ g with tries := g.tries + 1, running := running, iret := iret } : Get).Fetches old whole
      got where
  split := hg.split
  total := hg.total
  logs := hg.logs
  bound := hg.bound.trans (Nat.mul_le_mul_right _ (Nat.le_succ _))
  tries := htries

theorem writeToLog_logs {plog : LogFile Byte} (hlog : plog.Logs old [] got) (text : List Byte)
    (fopened : Bool) (taken : ℕ) :
    (writeToLog plog text fopened taken).Logs old [] (got ++ text) := by
  unfold writeToLog
  split_ifs with htext
  · rw [htext, List.append_nil]
    exact hlog
  · have hbase : plog.Logs old (if true then [] else old) got := hlog
    obtain ⟨hready, hnull⟩ := hbase.ready fopened
    exact hready.append hnull text taken

theorem round_fetches (hg : g.Fetches old whole got) (h : round g r = some t) :
    ∃ more, t.Fetches old whole (got ++ more) ∧ t.tries = g.tries + 1 := by
  unfold round at h
  split_ifs at h with hstop
  have htries : g.tries < maxTries := by
    rw [Bool.or_eq_true, decide_eq_true_eq] at hstop
    omega
  have hidle : ∀ running iret, some ({ g with
      tries := g.tries + 1, running := running, iret := iret } : Get) = some t →
      ∃ more, t.Fetches old whole (got ++ more) ∧ t.tries = g.tries + 1 := by
    rintro running iret ⟨⟩
    refine ⟨[], ?_, rfl⟩
    rw [List.append_nil]
    exact hg.idle htries running iret
  cases r with
  | selectFailed => exact hidle false 1 h
  | timeout =>
    dsimp only at h
    split_ifs at h
    · exact hidle false g.iret h
    · exact hidle g.running g.iret h
  | notSet => exact hidle g.running g.iret h
  | readFailed => exact hidle false 1 h
  | read more fopened taken =>
    dsimp only at h
    split_ifs at h with hend
    · exact hidle false g.iret h
    · cases h
      refine ⟨g.incoming.take (min (more + 1) mxGetBuf), ⟨?_, ?_, ?_, ?_, htries⟩, rfl⟩
      · rw [List.append_assoc, List.take_append_drop]
        exact hg.split
      · rw [List.length_append, hg.total]
      · exact writeToLog_logs hg.logs _ _ _
      · have hpart : (g.incoming.take (min (more + 1) mxGetBuf)).length ≤ mxGetBuf := by
          rw [List.length_take]
          omega
        have hbound := hg.bound
        rw [List.length_append, Nat.succ_mul]
        omega

theorem runs_fetches (hg : g.Fetches old whole got) (h : runs round g rs = some t) :
    ∃ more, t.Fetches old whole (got ++ more) ∧ t.tries = g.tries + rs.length := by
  induction rs generalizing g got with
  | nil =>
    cases h
    exact ⟨[], by rwa [List.append_nil], rfl⟩
  | cons r rs ih =>
    obtain ⟨u, hu, hr⟩ := runs_cons.mp h
    obtain ⟨more, hu, htries⟩ := round_fetches hg hu
    obtain ⟨rest, ht, hcount⟩ := ih hu hr
    refine ⟨more ++ rest, ?_, ?_⟩
    · rwa [← List.append_assoc]
    · rw [hcount, htries, List.length_cons]
      omega

theorem content_prefix (h : runs round (Get.start [] whole) rs = some g) :
    g.plog.content <+: whole := by
  obtain ⟨got, hg, -⟩ := runs_fetches (Get.Fetches.start [] whole) h
  rw [List.nil_append] at hg
  have hgot : got <+: whole := ⟨g.incoming, hg.split.symm⟩
  cases hhandle : g.plog.handle with
  | null =>
    rw [(hg.logs.null hhandle).1]
    exact List.nil_prefix
  | opened =>
    rw [hg.logs.opened hhandle]
    exact hgot
  | failed =>
    rcases hg.logs.failed hhandle with hnil | ⟨p, hp, hcontent⟩
    · rw [hnil]
      exact List.nil_prefix
    · rw [hcontent]
      exact hp.trans hgot

/-- After any rounds on any stream the log file is as before, or has all that was received, or a
first part of that after it was given up. There are ten rounds at most, and what comes after their
bytes is not read. -/
theorem get_log (old whole : List Byte) (rs : List Round)
    (h : runs round (Get.start old whole) rs = some g) :
    rs.length ≤ maxTries ∧ ∃ got, whole = got ++ g.incoming ∧ g.totalRecv = got.length ∧
      got.length ≤ rs.length * mxGetBuf ∧
      match g.plog.handle with
      | .null => g.plog.content = old ∧ got = []
      | .opened => g.plog.content = got
      | .failed => g.plog.content = old ∨ g.plog.content <+: got := by
  obtain ⟨got, hg, htries⟩ := runs_fetches (Get.Fetches.start old whole) h
  rw [List.nil_append] at hg
  have hcount : g.tries = rs.length := by rw [htries, Get.start, Nat.zero_add]
  refine ⟨hcount ▸ hg.tries, got, hg.split, hg.total, hcount ▸ hg.bound, ?_⟩
  cases hhandle : g.plog.handle with
  | null => exact hg.logs.null hhandle
  | opened => exact hg.logs.opened hhandle
  | failed =>
    rcases hg.logs.failed hhandle with hold | ⟨p, hp, hcontent⟩
    · exact Or.inl hold
    · rw [List.nil_append] at hcontent
      exact Or.inr (hcontent ▸ hp)

/-- The disk takes one byte of the second part only. -/
theorem get_log_cut : ∃ g, runs round (Get.start [] (chars "abcd"))
    [.timeout, .read 1 true 9, .read 1 true 1, .timeout] = some g ∧
      g.plog.content = chars "abc" ∧ ∃ got, chars "abcd" = got ++ g.incoming ∧
        (g.plog.content = [] ∨ g.plog.content <+: got) := by
  refine ⟨_, rfl, rfl, ?_⟩
  obtain ⟨-, got, hsplit, -, -, hlog⟩ := get_log [] (chars "abcd")
    [.timeout, .read 1 true 9, .read 1 true 1, .timeout] rfl
  exact ⟨got, hsplit, hlog⟩

end

end TcpTests.Httpget
