import TcpTests.Lib.LogFile
import TcpTests.Lib.Machine
import TcpTests.Net.Datagram

/-! `udp-recv`: the loop of `do_test` with its log file, and what the file holds after any number
of runs of the program. -/
namespace TcpTests.UdpRecv
open Lib Net

def mxUdpMsg : ℕ := 2048

structure Options where
  appendToLog : Bool
  echoReceivedData : Bool

/-- The state of `do_test` and the log file, with a record of the datagrams handed to `sendto`. -/
structure Receiver where
  msgFile : LogFile Byte
  running : Bool
  iret : ℕ
  sent : List Datagram

/-- The state at the head of the loop. The log file is opened at the first datagram. -/
def Receiver.start (old : List Byte) : Receiver where
  msgFile := ⟨old, .null⟩
  running := true
  iret := 0
  sent := []

/-- One pass of the loop: what `recvfrom` yields, whether its error is `WSAEINVAL`, whether a key
ends the sleep, what the disk does, and whether `sendto` succeeds. -/
structure Pass where
  recv : Recv
  invalid : Bool
  key : Bool
  fopened : Bool
  taken : ℕ
  sendOk : Bool

def writeMsgLog (o : Options) (msgFile : LogFile Byte) (msg : List Byte) (fopened : Bool)
    (taken : ℕ) : LogFile Byte :=
  (msgFile.ready (!o.appendToLog) fopened).append msg taken

def Receiver.datagram (o : Options) (r : Receiver) (serveraddr : SockaddrIn) (bytes : List Byte)
    (p : Pass) : Receiver :=
  let r := { r with msgFile := writeMsgLog o r.msgFile bytes p.fopened p.taken }
  if o.echoReceivedData then
    { r with sent := r.sent ++ [⟨serveraddr, bytes⟩], running := p.sendOk }
  else r

/-- On Windows an error that is not `WSAEINVAL` is passed over. -/
def pass (os : Platform) (o : Options) (r : Receiver) (p : Pass) : Option Receiver :=
  if !r.running then none
  else
    match p.recv with
    | .again => if p.key then some { r with running := false } else some r
    | .failed =>
      if os = .windows ∧ !p.invalid then some r
      else some { r with iret := 1, running := false }
    | .datagram serveraddr bytes =>
      let bytes := received mxUdpMsg bytes
      if bytes = [] then some r else some (r.datagram o serveraddr bytes p)

def Pass.heard (p : Pass) : Option Datagram :=
  match p.recv with
  | .datagram serveraddr bytes =>
    let bytes := received mxUdpMsg bytes
    if bytes = [] then none else some ⟨serveraddr, bytes⟩
  | _ => none

/-- The disk opens the file and takes all that it may be given. -/
def Pass.DiskOk (p : Pass) : Prop := p.fopened = true ∧ mxUdpMsg ≤ p.taken

def Options.base (o : Options) (old : List Byte) : List Byte := if o.appendToLog then old else []

def texts (heard : List Datagram) : List Byte := heard.flatMap fun d => d.bytes

/-- What was heard is in the log file and was sent back. -/
structure Receiver.Records (o : Options) (old : List Byte) (heard : List Datagram)
    (r : Receiver) : Prop where
  logs : r.msgFile.Logs old (o.base old) (texts heard)
  heard_ne : ∀ d ∈ heard, d.bytes ≠ []
  opened : r.msgFile.handle = .opened → heard ≠ []
  sent : r.sent = if o.echoReceivedData then heard else []

section
variable {os : Platform} {o : Options} {old final : List Byte} {heard : List Datagram}
  {r t : Receiver} {p : Pass} {ps : List Pass} {d : Datagram}

theorem texts_concat (heard : List Datagram) (d : Datagram) :
    texts (heard ++ [d]) = texts heard ++ d.bytes := by
  rw [texts, List.flatMap_append, List.flatMap_singleton]
  rfl

theorem texts_eq_nil_iff (h : ∀ d ∈ heard, d.bytes ≠ []) : texts heard = [] ↔ heard = [] := by
  rw [texts, List.flatMap_eq_nil_iff]
  constructor
  · intro hnil
    rw [List.eq_nil_iff_forall_not_mem]
    exact fun d hd => h d hd (hnil d hd)
  · rintro rfl
    exact nofun

theorem Receiver.Records.start (o : Options) (old : List Byte) :
    (Receiver.start old).Records o old [] where
  logs := ⟨fun _ => ⟨rfl, rfl⟩, nofun, nofun⟩
  heard_ne := nofun
  opened := nofun
  sent := by rw [ite_self]; rfl

theorem writeMsgLog_logs {f : LogFile Byte} {got : List Byte} (hf : f.Logs old (o.base old) got)
    (msg : List Byte) (fopened : Bool) (taken : ℕ) :
    (writeMsgLog o f msg fopened taken).Logs old (o.base old) (got ++ msg) := by
  have hbase : o.base old = if !o.appendToLog then [] else old := by
    rw [Options.base]
    cases o.appendToLog <;> rfl
  rw [hbase] at hf ⊢
  obtain ⟨hready, hnull⟩ := hf.ready fopened
  exact hready.append hnull msg taken

theorem writeMsgLog_handle {f : LogFile Byte} {msg : List Byte} {taken : ℕ}
    (hf : f.handle ≠ .failed) (hmsg : msg.length ≤ taken) :
    (writeMsgLog o f msg true taken).handle = .opened := by
  rw [writeMsgLog, LogFile.append_handle_iff]
  refine ⟨?_, hmsg⟩
  unfold LogFile.ready
  cases hh : f.handle with
  | null => rfl
  | opened => exact hh
  | failed => exact absurd hh hf

theorem Receiver.Records.datagram (hr : r.Records o old heard) (hd : d.bytes ≠ []) (p : Pass) :
    (r.datagram o d.addr d.bytes p).Records o old (heard ++ [d]) := by
  have hlogs := writeMsgLog_logs hr.logs d.bytes p.fopened p.taken
  rw [← texts_concat] at hlogs
  have hne : ∀ d' ∈ heard ++ [d], d'.bytes ≠ [] := by
    intro d' hd'
    rcases List.mem_append.mp hd' with hd' | hd'
    · exact hr.heard_ne d' hd'
    · rwa [List.mem_singleton.mp hd']
  have hconcat : heard ++ [d] ≠ [] := List.append_ne_nil_of_right_ne_nil _ (List.cons_ne_nil _ _)
  have hsent := hr.sent
  unfold Receiver.datagram
  split_ifs with hecho
  · rw [if_pos hecho] at hsent
    refine ⟨hlogs, hne, fun _ => hconcat, ?_⟩
    rw [if_pos hecho, ← hsent]
  · rw [if_neg hecho] at hsent
    refine ⟨hlogs, hne, fun _ => hconcat, ?_⟩
    rw [if_neg hecho]
    exact hsent

theorem pass_cases (h : pass os o r p = some t) :
    (p.heard = none ∧ t.msgFile = r.msgFile ∧ t.sent = r.sent) ∨
      ∃ d, p.heard = some d ∧ d.bytes ≠ [] ∧ d.bytes.length ≤ mxUdpMsg ∧
        t = r.datagram o d.addr d.bytes p := by
  unfold Pass.heard
  cases hrecv : p.recv with
  | again =>
    simp only [pass, hrecv] at h
    split_ifs at h <;> cases h <;> exact Or.inl ⟨rfl, rfl, rfl⟩
  | failed =>
    simp only [pass, hrecv] at h
    split_ifs at h <;> cases h <;> exact Or.inl ⟨rfl, rfl, rfl⟩
  | datagram serveraddr bytes =>
    simp only [pass, hrecv] at h
    split_ifs at h with hrunning hempty <;> cases h
    · exact Or.inl ⟨if_pos hempty, rfl, rfl⟩
    · exact Or.inr ⟨_, if_neg hempty, hempty, received_length_le _ _, rfl⟩

theorem pass_records (hr : r.Records o old heard) (h : pass os o r p = some t) :
    t.Records o old (heard ++ p.heard.toList) := by
  rcases pass_cases h with ⟨hnone, hfile, hsent⟩ | ⟨d, hd, hne, -, rfl⟩
  · rw [hnone, Option.toList_none, List.append_nil]
    exact ⟨hfile ▸ hr.logs, hr.heard_ne, hfile ▸ hr.opened, hsent ▸ hr.sent⟩
  · rw [hd]
    exact hr.datagram hne p

/-- The file is not given up while the disk does its part, and is open from the first datagram
on. -/
theorem pass_handle (hr : r.msgFile.handle ≠ .failed) (hp : p.DiskOk)
    (h : pass os o r p = some t) : t.msgFile.handle ≠ .failed := by
  rcases pass_cases h with ⟨-, hfile, -⟩ | ⟨d, -, -, hlen, rfl⟩
  · rwa [hfile]
  · have hopened := writeMsgLog_handle (o := o) hr (hlen.trans hp.2)
    rw [← hp.1] at hopened
    have hfile : (r.datagram o d.addr d.bytes p).msgFile =
        writeMsgLog o r.msgFile d.bytes p.fopened p.taken := by
      unfold Receiver.datagram
      split_ifs <;> rfl
    rw [hfile, hopened]
    exact nofun

theorem runs_records (hr : r.Records o old heard) (h : runs (pass os o) r ps = some t) :
    t.Records o old (heard ++ ps.filterMap Pass.heard) :=
  runs_collect (Receiver.Records o old) (fun _ _ _ _ hr hp => pass_records hr hp) hr h

theorem runs_handle (hps : ∀ p ∈ ps, p.DiskOk) (h : runs (pass os o) (.start old) ps = some t) :
    t.msgFile.handle ≠ .failed := by
  have hstart : (Receiver.start old).msgFile.handle ≠ .failed := nofun
  exact runs_invariant_of Pass.DiskOk (fun r => r.msgFile.handle ≠ .failed)
    (fun _ _ _ hr hp ht => pass_handle hr hp ht) hstart hps h

end

structure Session where
  options : Options
  passes : List Pass

def Session.texts (s : Session) : List Byte := UdpRecv.texts (s.passes.filterMap Pass.heard)

/-- What one run of the program after the other leaves in the log file. -/
inductive Sessions (os : Platform) : List Byte → List Session → List Byte → Prop
  | nil (old : List Byte) : Sessions os old [] old
  | cons {old final : List Byte} {s : Session} {ss : List Session} {r : Receiver}
      (hrun : runs (pass os s.options) (.start old) s.passes = some r)
      (hrest : Sessions os r.msgFile.content ss final) : Sessions os old (s :: ss) final

/-- A run keeps the log file as it is unless it hears something. -/
def Session.leaves (old : List Byte) (s : Session) : List Byte :=
  if s.texts = [] then old else s.options.base old ++ s.texts

section
variable {os : Platform} {old final : List Byte} {s : Session} {ss : List Session} {r : Receiver}

theorem session_content (h : runs (pass os s.options) (.start old) s.passes = some r) :
    ∃ p, p <+: s.texts ∧
      (r.msgFile.content = old ++ p ∨
        s.options.appendToLog = false ∧ r.msgFile.content = p) := by
  have hlogs := (runs_records (.start s.options old) h).logs
  rw [List.nil_append] at hlogs
  have hbase : ∀ p, r.msgFile.content = s.options.base old ++ p →
      r.msgFile.content = old ++ p ∨ s.options.appendToLog = false ∧ r.msgFile.content = p := by
    intro p hp
    rw [hp, Options.base]
    cases s.options.appendToLog with
    | false => exact Or.inr ⟨rfl, rfl⟩
    | true => exact Or.inl rfl
  cases hhandle : r.msgFile.handle with
  | null => exact ⟨[], List.nil_prefix, Or.inl (by rw [(hlogs.null hhandle).1, List.append_nil])⟩
  | opened => exact ⟨_, List.prefix_rfl, hbase _ (hlogs.opened hhandle)⟩
  | failed =>
    rcases hlogs.failed hhandle with hold | ⟨p, hp, hcontent⟩
    · exact ⟨[], List.nil_prefix, Or.inl (by rw [hold, List.append_nil])⟩
    · exact ⟨p, hp, hbase p hcontent⟩

theorem session_leaves (hs : ∀ p ∈ s.passes, p.DiskOk)
    (h : runs (pass os s.options) (.start old) s.passes = some r) :
    r.msgFile.content = s.leaves old := by
  have hrecords := runs_records (.start s.options old) h
  have hfine := runs_handle hs h
  rw [List.nil_append] at hrecords
  cases hhandle : r.msgFile.handle with
  | null =>
    obtain ⟨hold, htexts⟩ := hrecords.logs.null hhandle
    exact hold.trans (if_pos htexts).symm
  | opened =>
    have htexts : s.texts ≠ [] := fun hnil =>
      hrecords.opened hhandle ((texts_eq_nil_iff hrecords.heard_ne).mp hnil)
    exact (hrecords.logs.opened hhandle).trans (if_neg htexts).symm
  | failed => exact absurd hhandle hfine

/-- The file ends in what was added to it, without gaps in what a run heard, and starts with what
it held before if all runs append. -/
theorem sessions_pieces (h : Sessions os old ss final) :
    ∃ pieces, List.Forall₂ (fun p s => p <+: s.texts) pieces ss ∧
      final <:+ old ++ pieces.flatten ∧
      ((∀ s ∈ ss, s.options.appendToLog = true) → final = old ++ pieces.flatten) := by
  induction h with
  | nil old => exact ⟨[], .nil, by simp, fun _ => by simp⟩
  | @cons old final s ss r hrun hrest ih =>
    obtain ⟨p, hp, hcontent⟩ := session_content hrun
    obtain ⟨pieces, hpieces, hsuffix, happend⟩ := ih
    refine ⟨p :: pieces, .cons hp hpieces, ?_, ?_⟩
    · rw [List.flatten_cons, ← List.append_assoc]
      rcases hcontent with hcontent | ⟨-, hcontent⟩
      · rwa [hcontent] at hsuffix
      · rw [hcontent] at hsuffix
        refine hsuffix.trans ⟨old, ?_⟩
        rw [List.append_assoc]
    · intro hall
      have hfinal := happend fun s hs => hall s (List.mem_cons_of_mem _ hs)
      rcases hcontent with hcontent | ⟨hoption, -⟩
      · rw [hfinal, hcontent, List.flatten_cons, List.append_assoc]
      · rw [hall s List.mem_cons_self] at hoption
        cases hoption

theorem sessions_leaves (h : Sessions os old ss final)
    (hdisk : ∀ s ∈ ss, ∀ p ∈ s.passes, p.DiskOk) : final = ss.foldl Session.leaves old := by
  induction h with
  | nil old => rfl
  | @cons old final s ss r hrun hrest ih =>
    rw [List.foldl_cons, ← session_leaves (hdisk s List.mem_cons_self) hrun]
    exact ih fun s hs => hdisk s (List.mem_cons_of_mem _ hs)

theorem foldl_leaves (hss : ∀ s ∈ ss, s.options.appendToLog = true ∨ s.texts = []) :
    ss.foldl Session.leaves old = old ++ (ss.map Session.texts).flatten := by
  induction ss generalizing old with
  | nil => rw [List.foldl_nil, List.map_nil, List.flatten_nil, List.append_nil]
  | cons s ss ih =>
    have hs : s.leaves old = old ++ s.texts := by
      unfold Session.leaves
      split_ifs with htexts
      · rw [htexts, List.append_nil]
      · rw [Options.base, if_pos ((hss s List.mem_cons_self).resolve_right htexts)]
    rw [List.foldl_cons, ih fun s' hs' => hss s' (List.mem_cons_of_mem _ hs'), hs, List.map_cons,
      List.flatten_cons, List.append_assoc]

/-- After any number of runs the log file is the end of what it held and of first parts of what
the runs heard, with nothing left out if all append; and if the disk does its part it holds all
that was heard since the last run that heard something and does not append. -/
theorem log_sessions (h : Sessions os old ss final) :
    (∃ pieces, List.Forall₂ (fun p s => p <+: s.texts) pieces ss ∧
      final <:+ old ++ pieces.flatten ∧
      ((∀ s ∈ ss, s.options.appendToLog = true) → final = old ++ pieces.flatten)) ∧
    ((∀ s ∈ ss, ∀ p ∈ s.passes, p.DiskOk) →
      ∀ before s after, ss = before ++ s :: after → s.options.appendToLog = false →
        s.texts ≠ [] → (∀ s' ∈ after, s'.options.appendToLog = true ∨ s'.texts = []) →
          final = s.texts ++ (after.map Session.texts).flatten) := by
  refine ⟨sessions_pieces h, ?_⟩
  rintro hdisk before s after rfl hoption htexts hafter
  rw [sessions_leaves h hdisk, List.foldl_append, List.foldl_cons]
  have hs : s.leaves (before.foldl Session.leaves old) = s.texts := by
    rw [Session.leaves, if_neg htexts, Options.base, hoption, if_neg Bool.false_ne_true,
      List.nil_append]
  rw [hs]
  exact foldl_leaves hafter

/-- A run that hears one byte and is ended by a key. -/
def sampleSession (appendToLog : Bool) : Session :=
  ⟨⟨appendToLog, false⟩,
    [⟨.datagram ⟨0x7F000001#32, 3333#16⟩ [0x61#8], false, false, true, mxUdpMsg, true⟩,
      ⟨.again, false, true, true, mxUdpMsg, true⟩]⟩

/-- The first run makes the file anew, and the second one appends to it. -/
theorem log_sessions_two : ∃ final,
    Sessions .unix [0x62#8] [sampleSession false, sampleSession true] final ∧
      final = [0x61#8, 0x61#8] := by
  have h : Sessions .unix [0x62#8] [sampleSession false, sampleSession true] _ :=
    .cons rfl (.cons rfl (.nil _))
  have hdisk : ∀ s ∈ [sampleSession false, sampleSession true], ∀ p ∈ s.passes, p.DiskOk := by
    simp [sampleSession, Pass.DiskOk]
  have hafter : ∀ s ∈ [sampleSession true], s.options.appendToLog = true ∨ s.texts = [] := by
    simp [sampleSession]
  have hfinal := (log_sessions h).2 hdisk [] (sampleSession false) [sampleSession true] rfl rfl
    (by decide) hafter
  exact ⟨_, h, hfinal⟩

end

end TcpTests.UdpRecv
