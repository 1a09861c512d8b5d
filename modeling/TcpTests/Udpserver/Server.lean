import TcpTests.Lib.LogFile
import TcpTests.Lib.Machine
import TcpTests.Net.Datagram
import TcpTests.SimpCommon.Options
import TcpTests.Text.CleanData
import TcpTests.Text.Decimal

/-! `udpserver`: the loop of `run_udpserver`. One input of the machine is one pass of the loop. The
counters are not taken modulo their 64 bits, and an address and a port are the numbers that the
bytes on the wire stand for. -/
namespace TcpTests.Udpserver
open Lib Net Text SimpCommon

/-- The size of `data_buffer`. -/
def myMxData : ℕ := 2048

/-- The number in a byte of an address, the first byte being number 0. -/
def octet (addr : Word) (i : ℕ) : ℕ := (addr.extractLsb' (8 * (3 - i)) 8).toNat

def inetNtoa (addr : Word) : List Byte :=
  decimal (octet addr 0) ++ chars "." ++ decimal (octet addr 1) ++ chars "." ++
    decimal (octet addr 2) ++ chars "." ++ decimal (octet addr 3)

def infoLine (tmr : Tm) (clientaddr : SockaddrIn) (rlen : ℕ) : List Byte :=
  datetimeStg tmr ++ chars ": UDP Server recvfrom() IP " ++ inetNtoa clientaddr.sinAddr ++
    chars ", port " ++ decimal clientaddr.sinPort.toNat ++ chars ", len " ++ decimal rlen ++
    chars "\n"

/-- The state of `run_udpserver`, with a record of the datagrams handed to `sendto`. The pointer
`pout_file` is null when no output file was asked for. -/
structure Server where
  dataBuffer : Mem
  poutFile : LogFile Byte
  doAnEcho : Bool
  verbosity : ℕ
  isPaused : Bool
  recvsDone : ℕ
  recvBytes : ℕ
  sendsDone : ℕ
  sentBytes : ℕ
  running : Bool
  iret : ℕ
  sent : List Datagram

/-- The state at the head of the loop, with the output file created or none. -/
def Server.start (outFile doAnEcho : Bool) (verbosity : ℕ) : Server where
  dataBuffer := fun _ => 0
  poutFile := ⟨[], if outFile then .opened else .null⟩
  doAnEcho := doAnEcho
  verbosity := verbosity
  isPaused := false
  recvsDone := 0
  recvBytes := 0
  sendsDone := 0
  sentBytes := 0
  running := true
  iret := 0
  sent := []

/-- The new state, and whether the exit key was pressed. No key is character 0. -/
def Server.checkKey (s : Server) (chr : Char) : Server × Bool :=
  if chr = '\x1b' then (s, true)
  else if chr = 'p' then ({ s with isPaused := !s.isPaused }, false)
  else if chr ∈ ['0', '1', '2', '5', '9'] then
    ({ s with verbosity := chr.toNat - '0'.toNat }, false)
  else (s, false)

/-- One pass of the loop: the key pressed at its head, what `recvfrom` yields, the time, how much
the disk takes of the line and of the data, and whether `sendto` succeeds. -/
structure Pass where
  key : Char
  recv : Recv
  tmr : Tm
  lineTaken : ℕ
  dataTaken : ℕ
  sendOk : Bool

/-- A text is written to the output file, if there is one; the server ends when it is cut. -/
def Server.write (s : Server) (text : List Byte) (taken : ℕ) : Server :=
  match s.poutFile.handle with
  | .opened =>
    let f := s.poutFile.append text taken
    if f.handle = .failed then { s with poutFile := f, iret := 1, running := false }
    else { s with poutFile := f }
  | _ => s

/-- The reply: the buffer is put in upper case in place. -/
def Server.echo (s : Server) (clientaddr : SockaddrIn) (rlen : ℕ) (sendOk : Bool) : Server :=
  let m := s.dataBuffer.write 0 ((s.dataBuffer.read 0 rlen).map toupper)
  let s := { s with dataBuffer := m, sent := s.sent ++ [Datagram.mk clientaddr (m.read 0 rlen)] }
  if sendOk then
    { s with sendsDone := s.sendsDone + 1, sentBytes := s.sentBytes + rlen }
  else { s with iret := 1, running := false }

def Server.datagram (s : Server) (clientaddr : SockaddrIn) (bytes : List Byte) (p : Pass) :
    Server :=
  let bytes := received myMxData bytes
  let rlen := bytes.length
  let s := { s with
    dataBuffer := s.dataBuffer.write 0 bytes
    recvsDone := s.recvsDone + 1
    recvBytes := s.recvBytes + rlen }
  let s := s.write (infoLine p.tmr clientaddr rlen) p.lineTaken
  if !s.running then s
  else
    let s := s.write (s.dataBuffer.read 0 rlen) p.dataTaken
    if !s.running then s
    else if s.doAnEcho then s.echo clientaddr rlen p.sendOk else s

def pass (s : Server) (p : Pass) : Option Server :=
  if !s.running then none
  else if (s.checkKey p.key).2 then some { s with running := false }
  else
    let s := (s.checkKey p.key).1
    match p.recv with
    | .again => some s
    | .failed => some { s with iret := 1, running := false }
    | .datagram clientaddr bytes => some (s.datagram clientaddr bytes p)

/-- A datagram that the server has received, and when. -/
structure Entry where
  tmr : Tm
  clientaddr : SockaddrIn
  data : List Byte

def Entry.text (e : Entry) : List Byte :=
  infoLine e.tmr e.clientaddr e.data.length ++ e.data

def Entry.reply (e : Entry) : Datagram := ⟨e.clientaddr, e.data.map toupper⟩

/-- What is received in a pass, unless the exit key is pressed before. -/
def Pass.heard (p : Pass) : Option Entry :=
  if p.key = '\x1b' then none
  else
    match p.recv with
    | .datagram clientaddr bytes => some ⟨p.tmr, clientaddr, received myMxData bytes⟩
    | _ => none

def replies (doAnEcho : Bool) (entries : List Entry) : List Datagram :=
  if doAnEcho then entries.map Entry.reply else []

/-- The server has counted and logged what it received and replied to it. Only the last reply can
be missing, or its text in the file be cut, and then the server has failed. -/
structure Server.Serves (outFile doAnEcho : Bool) (entries : List Entry) (s : Server) : Prop where
  echo : s.doAnEcho = doAnEcho
  recvsDone : s.recvsDone = entries.length
  recvBytes : s.recvBytes = (entries.map fun e => e.data.length).sum
  null : s.poutFile.handle = .null ↔ outFile = false
  logs : outFile = true → s.poutFile.Logs [] [] (entries.flatMap Entry.text)
  sent : s.sent <+: replies doAnEcho entries
  settled : s.iret = 0 → s.poutFile.handle ≠ .failed ∧ s.sent = replies doAnEcho entries ∧
    s.sendsDone = s.sent.length ∧ s.sentBytes = (s.sent.map fun d => d.bytes.length).sum
  iret : s.running = true → s.iret = 0

section
variable {s t : Server} {outFile doAnEcho : Bool} {entries : List Entry} {p : Pass}
  {passes : List Pass}

theorem checkKey_exit (s : Server) (chr : Char) :
    (s.checkKey chr).2 = true ↔ chr = '\x1b' := by
  unfold Server.checkKey
  split_ifs with hesc <;> simp [hesc]

theorem Server.Serves.start (outFile doAnEcho : Bool) (verbosity : ℕ) :
    (Server.start outFile doAnEcho verbosity).Serves outFile doAnEcho [] where
  echo := rfl
  recvsDone := rfl
  recvBytes := rfl
  null := by cases outFile <;> simp [Server.start]
  logs := by
    rintro rfl
    exact ⟨nofun, fun _ => rfl, nofun⟩
  sent := List.nil_prefix
  settled := by
    intro _
    refine ⟨?_, ?_, rfl, rfl⟩
    · cases outFile <;> exact nofun
    · cases doAnEcho <;> rfl
  iret := fun _ => rfl

theorem Server.Serves.checkKey (hs : s.Serves outFile doAnEcho entries) (chr : Char) :
    (s.checkKey chr).1.Serves outFile doAnEcho entries := by
  obtain ⟨h1, h2, h3, h4, h5, h6, h7, h8⟩ := hs
  unfold Server.checkKey
  split_ifs <;> exact ⟨h1, h2, h3, h4, h5, h6, h7, h8⟩

theorem Server.Serves.stop (hs : s.Serves outFile doAnEcho entries) :
    Server.Serves outFile doAnEcho entries { s with running := false } := by
  obtain ⟨h1, h2, h3, h4, h5, h6, h7, -⟩ := hs
  exact ⟨h1, h2, h3, h4, h5, h6, h7, nofun⟩

theorem Server.Serves.fail (hs : s.Serves outFile doAnEcho entries) :
    Server.Serves outFile doAnEcho entries { s with iret := 1, running := false } := by
  obtain ⟨h1, h2, h3, h4, h5, h6, -, -⟩ := hs
  exact ⟨h1, h2, h3, h4, h5, h6, nofun, nofun⟩

/-- What `write` does to the file, to the result and to the loop. -/
structure Writes (s : Server) (text : List Byte) (f : LogFile Byte) (ok : Bool) : Prop where
  null : f.handle = .null ↔ s.poutFile.handle = .null
  failed : ok = false → f.handle = .failed
  whole : ok = true → s.poutFile.handle ≠ .failed → f.handle ≠ .failed
  logs : ∀ texts, s.poutFile.handle ≠ .null → s.poutFile.Logs [] [] texts →
    f.Logs [] [] (texts ++ text)

theorem write_writes (hrun : s.running = true) (hiret : s.iret = 0) (text : List Byte)
    (taken : ℕ) :
    ∃ f ok, s.write text taken =
        { s with poutFile := f, iret := if ok then 0 else 1, running := ok } ∧
      Writes s text f ok := by
  have hself : s = { s with poutFile := s.poutFile, iret := 0, running := true } := by
    rw [← hrun, ← hiret]
  have hnull := @LogFile.append_not_null _ text s.poutFile taken
  unfold Server.write
  cases hh : s.poutFile.handle with
  | null =>
    refine ⟨s.poutFile, true, hself, Iff.rfl, nofun, fun _ h => h, ?_⟩
    intro _ h
    exact absurd hh h
  | opened =>
    have hopen : s.poutFile.handle ≠ .null := by rw [hh]; exact nofun
    dsimp only
    split_ifs with hfail
    · refine ⟨s.poutFile.append text taken, false, rfl, ?_, fun _ => hfail, nofun, ?_⟩
      · exact iff_of_false (hnull hopen) hopen
      · exact fun _ h hlogs => hlogs.append h text taken
    · refine ⟨s.poutFile.append text taken, true, ?_, ?_, nofun, fun _ _ => hfail, ?_⟩
      · exact congrArg (fun s : Server =>
          { s with poutFile := s.poutFile.append text taken }) hself
      · exact iff_of_false (hnull hopen) hopen
      · exact fun _ h hlogs => hlogs.append h text taken
  | failed =>
    refine ⟨s.poutFile, true, hself, Iff.rfl, nofun, fun _ h => h, ?_⟩
    exact fun _ _ hlogs => hlogs.of_failed hh text

theorem replies_append (doAnEcho : Bool) (entries : List Entry) (e : Entry) :
    replies doAnEcho (entries ++ [e]) =
      replies doAnEcho entries ++ if doAnEcho then [e.reply] else [] := by
  unfold replies
  split_ifs
  · rw [List.map_append, List.map_singleton]
  · rfl

/-- What is true of a server that has stopped in the middle of a datagram. -/
theorem Server.Serves.cut (hs : s.Serves outFile doAnEcho entries) (e : Entry)
    {m : Mem} {f : LogFile Byte} {sent : List Datagram}
    (hnull : f.handle = .null ↔ s.poutFile.handle = .null)
    (hlogs : outFile = true → f.Logs [] [] (entries.flatMap Entry.text ++ e.text))
    (hsent : sent <+: replies doAnEcho (entries ++ [e])) :
    Server.Serves outFile doAnEcho (entries ++ [e])
      { s with
        dataBuffer := m
        poutFile := f
        recvsDone := s.recvsDone + 1
        recvBytes := s.recvBytes + e.data.length
        running := false
        iret := 1
        sent := sent } where
  echo := hs.echo
  recvsDone := by rw [hs.recvsDone, List.length_append, List.length_singleton]
  recvBytes := by rw [hs.recvBytes, List.map_append, List.sum_append, List.map_singleton,
    List.sum_singleton]
  null := hnull.trans hs.null
  logs := by
    intro hout
    rw [List.flatMap_append, List.flatMap_singleton]
    exact hlogs hout
  sent := hsent
  settled := nofun
  iret := nofun

theorem Server.Serves.done (hs : s.Serves outFile doAnEcho entries) (e : Entry)
    {m : Mem} {f : LogFile Byte} {sent : List Datagram} {sendsDone sentBytes : ℕ}
    (hnull : f.handle = .null ↔ s.poutFile.handle = .null) (hwhole : f.handle ≠ .failed)
    (hlogs : outFile = true → f.Logs [] [] (entries.flatMap Entry.text ++ e.text))
    (hsent : sent = replies doAnEcho (entries ++ [e])) (hsends : sendsDone = sent.length)
    (hbytes : sentBytes = (sent.map fun d => d.bytes.length).sum) :
    Server.Serves outFile doAnEcho (entries ++ [e])
      { s with
        dataBuffer := m
        poutFile := f
        recvsDone := s.recvsDone + 1
        recvBytes := s.recvBytes + e.data.length
        sendsDone := sendsDone
        sentBytes := sentBytes
        running := true
        iret := 0
        sent := sent } := by
  have hprefix : sent <+: replies doAnEcho (entries ++ [e]) := by rw [hsent]
  obtain ⟨h1, h2, h3, h4, h5, h6, -, -⟩ := hs.cut e (m := m) hnull hlogs hprefix
  exact ⟨h1, h2, h3, h4, h5, h6, fun _ => ⟨hwhole, hsent, hsends, hbytes⟩, fun _ => rfl⟩

theorem Server.Serves.reply (hs : s.Serves outFile doAnEcho entries) (hrun : s.running = true)
    (e : Entry) {m : Mem} {f : LogFile Byte} (hread : m.read 0 e.data.length = e.data)
    (hnull : f.handle = .null ↔ s.poutFile.handle = .null) (hwhole : f.handle ≠ .failed)
    (hlogs : outFile = true → f.Logs [] [] (entries.flatMap Entry.text ++ e.text))
    {u : Server} (hu : u = { s with
      dataBuffer := m
      poutFile := f
      recvsDone := s.recvsDone + 1
      recvBytes := s.recvBytes + e.data.length
      running := true
      iret := 0 }) (sendOk : Bool) :
    (if u.doAnEcho then u.echo e.clientaddr e.data.length sendOk else u).Serves outFile doAnEcho
      (entries ++ [e]) := by
  obtain ⟨-, hsent, hsends, hbytes⟩ := hs.settled (hs.iret hrun)
  have hsplit := replies_append doAnEcho entries e
  have hecho : u.doAnEcho = doAnEcho := by rw [hu, ← hs.echo]
  cases doAnEcho with
  | false =>
    rw [if_neg (by decide), List.append_nil] at hsplit
    rw [if_neg (by rw [hecho]; decide), hu]
    exact hs.done e hnull hwhole hlogs (hsent.trans hsplit.symm) hsends hbytes
  | true =>
    have hupper : ∀ m : Mem, (m.write 0 (e.data.map toupper)).read 0 e.data.length =
        e.data.map toupper := fun m => Mem.read_write_of_length (List.length_map _)
    rw [if_pos rfl] at hsplit
    have hreplies : s.sent ++ [⟨e.clientaddr, e.data.map toupper⟩] =
        replies true (entries ++ [e]) := by
      rw [hsplit, hsent]
      rfl
    rw [if_pos hecho, hu]
    unfold Server.echo
    dsimp only
    rw [hread, hupper]
    by_cases hok : sendOk = true
    · rw [if_pos hok]
      refine hs.done e hnull hwhole hlogs hreplies ?_ ?_
      · rw [hsends, List.length_append, List.length_singleton]
      · rw [hbytes, List.map_append, List.sum_append, List.map_singleton, List.sum_singleton,
          List.length_map]
    · rw [if_neg hok]
      exact hs.cut e hnull hlogs (hreplies ▸ List.prefix_rfl)

/-- A datagram is counted, logged as it came and answered in upper case. -/
theorem Server.Serves.datagram (hs : s.Serves outFile doAnEcho entries) (hrun : s.running = true)
    (clientaddr : SockaddrIn) (bytes : List Byte) (p : Pass) :
    (s.datagram clientaddr bytes p).Serves outFile doAnEcho
      (entries ++ [⟨p.tmr, clientaddr, received myMxData bytes⟩]) := by
  obtain ⟨hfailed, -, -, -⟩ := hs.settled (hs.iret hrun)
  have hprefix : s.sent <+: replies doAnEcho
      (entries ++ [⟨p.tmr, clientaddr, received myMxData bytes⟩]) := by
    rw [replies_append]
    exact hs.sent.trans (List.prefix_append _ _)
  have hlogs : outFile = true →
      s.poutFile.handle ≠ .null ∧ s.poutFile.Logs [] [] (entries.flatMap Entry.text) := by
    intro hout
    exact ⟨fun h => absurd (hs.null.mp h) (by simp [hout]), hs.logs hout⟩
  unfold Server.datagram
  dsimp only
  generalize hdata : received myMxData bytes = data at hprefix ⊢
  obtain ⟨f, ok, hwrite, hline⟩ := @write_writes
    { s with
      dataBuffer := s.dataBuffer.write 0 data
      recvsDone := s.recvsDone + 1
      recvBytes := s.recvBytes + data.length }
    hrun (hs.iret hrun) (infoLine p.tmr clientaddr data.length) p.lineTaken
  rw [hwrite]
  cases ok with
  | false =>
    refine hs.cut ⟨p.tmr, clientaddr, data⟩ hline.null (fun hout => ?_) hprefix
    obtain ⟨hnull, hlogs⟩ := hlogs hout
    rw [Entry.text, ← List.append_assoc]
    exact (hline.logs _ hnull hlogs).of_failed (hline.failed rfl) _
  | true =>
    dsimp only
    rw [if_neg (by decide), Mem.read_write_self]
    obtain ⟨g, ok, hwrite', hblock⟩ := @write_writes
      { s with
        dataBuffer := s.dataBuffer.write 0 data
        poutFile := f
        recvsDone := s.recvsDone + 1
        recvBytes := s.recvBytes + data.length
        running := true
        iret := 0 }
      rfl rfl data p.dataTaken
    have hnull : g.handle = .null ↔ s.poutFile.handle = .null := hblock.null.trans hline.null
    have hboth : outFile = true →
        g.Logs [] [] (entries.flatMap Entry.text ++ Entry.text ⟨p.tmr, clientaddr, data⟩) := by
      intro hout
      obtain ⟨hopen, hlogs⟩ := hlogs hout
      rw [Entry.text, ← List.append_assoc]
      exact hblock.logs _ (fun h => hopen (hline.null.mp h)) (hline.logs _ hopen hlogs)
    have hwhole : ok = true → g.handle ≠ .failed := fun h => hblock.whole h (hline.whole rfl hfailed)
    simp only [if_true] at hwrite' ⊢
    rw [hwrite']
    cases ok with
    | false => exact hs.cut ⟨p.tmr, clientaddr, data⟩ hnull hboth hprefix
    | true =>
      dsimp only
      rw [if_neg (by decide)]
      exact hs.reply hrun ⟨p.tmr, clientaddr, data⟩ (Mem.read_write_self _ _ _) hnull (hwhole rfl)
        hboth rfl p.sendOk

theorem pass_serves (hs : s.Serves outFile doAnEcho entries) (hp : pass s p = some t) :
    t.Serves outFile doAnEcho (entries ++ p.heard.toList) := by
  unfold pass at hp
  unfold Pass.heard
  by_cases hkey : p.key = '\x1b'
  · rw [if_pos hkey]
    rw [if_pos ((checkKey_exit s p.key).mpr hkey)] at hp
    split_ifs at hp
    cases hp
    simpa using hs.stop
  · have hk := hs.checkKey p.key
    rw [if_neg hkey]
    rw [if_neg (mt (checkKey_exit s p.key).mp hkey)] at hp
    split_ifs at hp with hrun
    dsimp only at hp
    cases hrecv : p.recv with
    | again =>
      rw [hrecv] at hp
      cases hp
      simpa using hk
    | failed =>
      rw [hrecv] at hp
      cases hp
      simpa using hk.fail
    | datagram addr bytes =>
      rw [hrecv] at hp
      cases hp
      refine hk.datagram ?_ addr bytes p
      have hkeep : (s.checkKey p.key).1.running = s.running := by
        unfold Server.checkKey
        split_ifs <;> rfl
      rw [hkeep]
      simpa using hrun

theorem runs_serves (hs : s.Serves outFile doAnEcho entries) (hr : runs pass s passes = some t) :
    t.Serves outFile doAnEcho (entries ++ passes.filterMap Pass.heard) :=
  runs_collect (Server.Serves outFile doAnEcho) (fun _ _ _ _ hs hp => pass_serves hs hp) hs hr

theorem write_sent (s : Server) (text : List Byte) (taken : ℕ) :
    (s.write text taken).sent = s.sent := by
  unfold Server.write
  cases s.poutFile.handle with
  | null => rfl
  | opened =>
    dsimp only
    split_ifs <;> rfl
  | failed => rfl

theorem write_dataBuffer (s : Server) (text : List Byte) (taken : ℕ) :
    (s.write text taken).dataBuffer = s.dataBuffer := by
  unfold Server.write
  cases s.poutFile.handle with
  | null => rfl
  | opened =>
    dsimp only
    split_ifs <;> rfl
  | failed => rfl

theorem echo_sent (s : Server) (clientaddr : SockaddrIn) (rlen : ℕ) (sendOk : Bool) :
    (s.echo clientaddr rlen sendOk).sent =
      s.sent ++ [⟨clientaddr, (s.dataBuffer.read 0 rlen).map toupper⟩] := by
  have hread : (s.dataBuffer.write 0 ((s.dataBuffer.read 0 rlen).map toupper)).read 0 rlen =
      (s.dataBuffer.read 0 rlen).map toupper :=
    Mem.read_write_of_length (by rw [List.length_map, Mem.read_length])
  unfold Server.echo
  dsimp only
  rw [hread]
  split_ifs <;> rfl

theorem datagram_sent (s : Server) (clientaddr : SockaddrIn) (bytes : List Byte) (p : Pass) :
    ∃ new, (s.datagram clientaddr bytes p).sent = s.sent ++ new ∧
      ∀ d ∈ new, d = ⟨clientaddr, (received myMxData bytes).map toupper⟩ := by
  unfold Server.datagram
  dsimp only
  split_ifs
  · refine ⟨[], ?_, nofun⟩
    rw [write_sent, List.append_nil]
  · refine ⟨[], ?_, nofun⟩
    rw [write_sent, write_sent, List.append_nil]
  · refine ⟨[⟨clientaddr, (received myMxData bytes).map toupper⟩], ?_, ?_⟩
    · rw [echo_sent, write_sent, write_sent, write_dataBuffer, write_dataBuffer,
        Mem.read_write_self]
    · exact fun d hd => List.mem_singleton.mp hd
  · refine ⟨[], ?_, nofun⟩
    rw [write_sent, write_sent, List.append_nil]

theorem pass_sent (hp : pass s p = some t) :
    ∃ new, t.sent = s.sent ++ new ∧ ∀ d ∈ new, ∃ e ∈ p.heard, d = e.reply := by
  have hkeep : (s.checkKey p.key).1.sent = s.sent := by
    unfold Server.checkKey
    split_ifs <;> rfl
  have hnone : t.sent = s.sent → ∃ new, t.sent = s.sent ++ new ∧
      ∀ d ∈ new, ∃ e ∈ p.heard, d = e.reply := by
    intro h
    exact ⟨[], by rw [h, List.append_nil], nofun⟩
  unfold pass at hp
  by_cases hkey : p.key = '\x1b'
  · rw [if_pos ((checkKey_exit s p.key).mpr hkey)] at hp
    split_ifs at hp
    cases hp
    exact hnone rfl
  · rw [if_neg (mt (checkKey_exit s p.key).mp hkey)] at hp
    split_ifs at hp
    dsimp only at hp
    cases hrecv : p.recv with
    | again =>
      rw [hrecv] at hp
      cases hp
      exact hnone hkeep
    | failed =>
      rw [hrecv] at hp
      cases hp
      exact hnone hkeep
    | datagram addr bytes =>
      have hheard : p.heard = some ⟨p.tmr, addr, received myMxData bytes⟩ := by
        rw [Pass.heard, if_neg hkey, hrecv]
      rw [hrecv] at hp
      cases hp
      obtain ⟨new, hnew, hreply⟩ := datagram_sent (s.checkKey p.key).1 addr bytes p
      refine ⟨new, by rw [hnew, hkeep], fun d hd => ⟨_, hheard, hreply d hd⟩⟩

theorem Server.Serves.content_prefix (hs : s.Serves outFile doAnEcho entries)
    (hout : outFile = true) : s.poutFile.content <+: entries.flatMap Entry.text := by
  have hlogs := hs.logs hout
  cases hh : s.poutFile.handle with
  | null => exact absurd (hs.null.mp hh) (by simp [hout])
  | opened => rw [hlogs.opened hh, List.nil_append]
  | failed =>
    rcases hlogs.failed hh with hempty | ⟨q, hq, hcontent⟩
    · rw [hempty]
      exact List.nil_prefix
    · rwa [hcontent, List.nil_append]

theorem Server.Serves.content (hs : s.Serves outFile doAnEcho entries) (hout : outFile = true)
    (hiret : s.iret = 0) : s.poutFile.content = entries.flatMap Entry.text := by
  cases hh : s.poutFile.handle with
  | null => exact absurd (hs.null.mp hh) (by simp [hout])
  | opened => rw [(hs.logs hout).opened hh, List.nil_append]
  | failed => exact absurd hh (hs.settled hiret).1

end

/-- In every run the datagrams are counted, the output file holds the first part of their texts and
the replies go to their senders in order, in upper case. While the server has not failed, all
texts and all replies are there. -/
theorem run_serves (outFile doAnEcho : Bool) (verbosity : ℕ) (passes : List Pass) (s : Server)
    (hr : runs pass (.start outFile doAnEcho verbosity) passes = some s) :
    let entries := passes.filterMap Pass.heard
    s.recvsDone = entries.length ∧ s.recvBytes = (entries.map fun e => e.data.length).sum ∧
      (outFile = true → s.poutFile.content <+: entries.flatMap Entry.text) ∧
      s.sent <+: replies doAnEcho entries ∧
      (s.iret = 0 →
        (outFile = true → s.poutFile.content = entries.flatMap Entry.text) ∧
          s.sent = replies doAnEcho entries ∧ s.sendsDone = s.sent.length ∧
          s.sentBytes = (s.sent.map fun d => d.bytes.length).sum) := by
  have hs := runs_serves (Server.Serves.start outFile doAnEcho verbosity) hr
  rw [List.nil_append] at hs
  refine ⟨hs.recvsDone, hs.recvBytes, hs.content_prefix, hs.sent, fun hiret => ?_⟩
  obtain ⟨-, hsent, hsends, hbytes⟩ := hs.settled hiret
  exact ⟨fun hout => hs.content hout hiret, hsent, hsends, hbytes⟩

/-- A datagram of two letters, of which the disk takes one. -/
def samplePass : Pass :=
  ⟨'\x00', .datagram ⟨0x7F000001#32, 3333#16⟩ (chars "hi"), ⟨1, 0, 100, 0, 0, 0⟩, 100, 1, true⟩

theorem run_serves_cut :
    ∃ s, runs pass (.start true true 0) [samplePass] = some s ∧ s.recvsDone = 1 ∧
      s.poutFile.content <+: (samplePass.heard.toList.flatMap Entry.text) := by
  obtain ⟨hrecvs, -, hfile, -⟩ := run_serves true true 0 [samplePass] _ rfl
  exact ⟨_, rfl, hrecvs, hfile rfl⟩

end TcpTests.Udpserver
