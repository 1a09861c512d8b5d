import TcpTests.Lib.LogFile
import TcpTests.Lib.Shuffle
import TcpTests.SimpServer.Receive

/-! The message log of `simp_server`, to which `handle_receive` adds what it receives, whichever
connection it is from. -/
namespace TcpTests.SimpServer
open Lib

/-- A piece of the log: what was received, and the number of the connection. -/
abbrev Piece := ℕ × List Byte

/-- `write_msg_log`: whether the file can be opened for appending, and how much the disk takes. -/
def writeMsgLog (msgFile : LogFile Byte) (msg : List Byte) (disk : Bool × ℕ) : LogFile Byte :=
  (msgFile.ready false disk.1).append msg disk.2

/-- The piece for which one `handle_receive` calls `write_msg_log`, if it does. -/
def pieceOf (io : Io) (sd : ℤ) (k : Sockets) : List Piece :=
  match io.recv with
  | .received bytes _ => ((k.conns.find? (·.sd = sd)).map fun c => (c.serial, bytes)).toList
  | _ => []

/-- The pieces of the first loop of `process_clients`, with the same calls as there. -/
def receivePieces (doEcho : Bool) (listenSocket : Finset ℤ) :
    List InClient → (ℕ → Io) → Sockets → List Piece
  | [], _, _ => []
  | pic :: pics, ios, k =>
    if ¬ pic.unused ∧ pic.sock ∈ listenSocket then
      pieceOf (ios 0) pic.sock k ++
        receivePieces doEcho listenSocket pics (fun n => ios (n + 1))
          (k.handleReceive doEcho (ios 0) pic.sock)
    else receivePieces doEcho listenSocket pics (fun n => ios (n + 1)) k

/-- The pieces of a step: there are none unless `process_clients` is called. -/
def Server.pieces (s : Server) : Event → List Piece
  | .iterate key (.ready set _ ios) =>
    let r := s.checkKey key
    let u := r.1
    if r.2 = true ∨ u.isPaused = true ∨ setupFdSet u.sockfd u.vInClients = none ∨ u.sockfd ∈ set then
      []
    else receivePieces u.doEcho set u.vInClients ios u.sockets
  | _ => []

def writePieces : List Piece → (ℕ → Bool × ℕ) → LogFile Byte → LogFile Byte
  | [], _, msgFile => msgFile
  | p :: ps, disk, msgFile =>
    writePieces ps (fun n => disk (n + 1)) (writeMsgLog msgFile p.2 (disk 0))

structure Logged where
  server : Server
  msgFile : LogFile Byte

/-- The server is at the start of its loop, and `old` is in the log file from before. -/
def Logged.start (sockfd : ℤ) (doEcho : Bool) (old : List Byte) : Logged :=
  ⟨.start sockfd doEcho, ⟨old, .null⟩⟩

/-- A step of the server, with what the disk does for each piece. -/
def Logged.step (s : Logged) (e : Event × (ℕ → Bool × ℕ)) : Option Logged :=
  (SimpServer.step s.server e.1).map fun t =>
    ⟨t, writePieces (s.server.pieces e.1) e.2 s.msgFile⟩

/-- What was received on a connection is its stream of the pieces, also after it was closed. -/
structure Streams (ps : List Piece) (k : Sockets) : Prop where
  conns : ∀ c ∈ k.conns, c.received = streamOf c.serial ps
  closed : ∀ r ∈ k.closed, r.1.received = streamOf r.1.serial ps
  known : ∀ p ∈ ps, p.1 < k.accepted

/-- The pieces are in the log, and make up what was received. -/
structure Logged.Mixes (old : List Byte) (ps : List Piece) (s : Logged) : Prop where
  inv : s.server.pc = .undefined ∨ s.server.Inv
  log : s.msgFile.Logs old old (merged ps)
  streams : Streams ps s.server.sockets

section
variable {doEcho : Bool} {io : Io} {sd : ℤ} {k : Sockets} {c : Conn} {pics : List InClient}
  {ios : ℕ → Io} {listenSocket : Finset ℤ} {old texts : List Byte} {ps : List Piece}
  {msgFile : LogFile Byte} {highest : ℤ} {s t : Server}

theorem writePieces_logs (h : msgFile.Logs old old texts) (ps : List Piece)
    (disk : ℕ → Bool × ℕ) :
    (writePieces ps disk msgFile).Logs old old (texts ++ merged ps) := by
  induction ps generalizing texts disk msgFile with
  | nil =>
    rw [merged, List.flatMap_nil, List.append_nil]
    exact h
  | cons p ps ih =>
    have hbase : msgFile.Logs old (if false then [] else old) texts := h
    obtain ⟨hready, hnull⟩ := hbase.ready (disk 0).1
    have hnext := ih (hready.append hnull p.2 (disk 0).2) fun n => disk (n + 1)
    rw [List.append_assoc] at hnext
    exact hnext

theorem Conn.handleReceive_received (c : Conn) :
    (c.handleReceive doEcho io).received = c.received ++
      match io.recv with
      | .received bytes _ => bytes
      | _ => [] := by
  unfold Conn.handleReceive
  cases io.recv with
  | received bytes fits =>
    dsimp only
    split_ifs
    · split <;> rfl
    · rfl
  | closed | wouldBlock | failed => exact (List.append_nil _).symm

theorem find?_sd (hsd : (k.conns.map Conn.sd).Nodup) (hc : c ∈ k.conns) :
    k.conns.find? (·.sd = c.sd) = some c := by
  obtain ⟨d, hd⟩ := Option.isSome_iff_exists.mp
    (List.find?_isSome.mpr ⟨c, hc, by simp⟩ : (k.conns.find? (·.sd = c.sd)).isSome)
  have hsame : d.sd = c.sd := by simpa using List.find?_some hd
  rw [hd, List.inj_on_of_nodup_map hsd (List.mem_of_find?_eq_some hd) hc hsame]

theorem mem_pieceOf {p : Piece} (hp : p ∈ pieceOf io sd k) :
    ∃ c ∈ k.conns, c.sd = sd ∧ p.1 = c.serial := by
  unfold pieceOf at hp
  split at hp
  · obtain ⟨c, hc, rfl⟩ := Option.map_eq_some_iff.mp (Option.mem_toList.mp hp)
    exact ⟨c, List.mem_of_find?_eq_some hc, by simpa using List.find?_some hc, rfl⟩
  · cases hp

theorem handleReceive_streams (hsd : (k.conns.map Conn.sd).Nodup)
    (hserial : (k.conns.map Conn.serial).Nodup) (hc : c ∈ k.conns) :
    (if c.sd = sd then c.handleReceive doEcho io else c).received =
      c.received ++ streamOf c.serial (pieceOf io sd k) := by
  split_ifs with hown
  · subst hown
    rw [Conn.handleReceive_received]
    unfold pieceOf
    cases io.recv with
    | received bytes fits =>
      dsimp only
      rw [find?_sd hsd hc, Option.map_some, Option.toList_some, streamOf_singleton]
    | closed | wouldBlock | failed => rfl
  · have hnone : streamOf c.serial (pieceOf io sd k) = [] := by
      refine streamOf_eq_nil ?_
      intro p hp heq
      obtain ⟨d, hd, hdsd, hdserial⟩ := mem_pieceOf hp
      have hcd : c = d := List.inj_on_of_nodup_map hserial hc hd (heq.symm.trans hdserial)
      exact hown (hcd ▸ hdsd)
    rw [hnone, List.append_nil]

/-- The pass over the clients adds to each connection its stream of the pieces. -/
theorem receiveClients_streams (hsd : (k.conns.map Conn.sd).Nodup)
    (hserial : (k.conns.map Conn.serial).Nodup) :
    (∀ d ∈ (receiveClients doEcho listenSocket pics ios k).2.2.conns, ∃ c ∈ k.conns,
      d.serial = c.serial ∧ d.received = c.received ++
        streamOf c.serial (receivePieces doEcho listenSocket pics ios k)) ∧
    (∀ p ∈ receivePieces doEcho listenSocket pics ios k, ∃ c ∈ k.conns, p.1 = c.serial) ∧
    (receiveClients doEcho listenSocket pics ios k).2.2.closed = k.closed ∧
    (receiveClients doEcho listenSocket pics ios k).2.2.accepted = k.accepted := by
  induction pics generalizing k ios with
  | nil => exact ⟨fun d hd => ⟨d, hd, rfl, (List.append_nil _).symm⟩, nofun, rfl, rfl⟩
  | cons pic pics ih =>
    unfold receiveClients receivePieces
    by_cases hready : ¬ pic.unused ∧ pic.sock ∈ listenSocket
    · rw [if_pos hready, if_pos hready]
      have hkeep : ∀ c : Conn,
          (if c.sd = pic.sock then c.handleReceive doEcho (ios 0) else c).sd = c.sd ∧
          (if c.sd = pic.sock then c.handleReceive doEcho (ios 0) else c).serial = c.serial := by
        intro c
        obtain ⟨hcsd, hcserial, -⟩ := @Conn.handleReceive_fields doEcho (ios 0) c
        split_ifs
        · exact ⟨hcsd, hcserial⟩
        · exact ⟨rfl, rfl⟩
      have hsd' : ((k.handleReceive doEcho (ios 0) pic.sock).conns.map Conn.sd).Nodup := by
        have hmap : (k.handleReceive doEcho (ios 0) pic.sock).conns.map Conn.sd =
            k.conns.map Conn.sd := by
          rw [Sockets.handleReceive, List.map_map]
          exact List.map_congr_left fun c _ => (hkeep c).1
        rwa [hmap]
      have hserial' :
          ((k.handleReceive doEcho (ios 0) pic.sock).conns.map Conn.serial).Nodup := by
        have hmap : (k.handleReceive doEcho (ios 0) pic.sock).conns.map Conn.serial =
            k.conns.map Conn.serial := by
          rw [Sockets.handleReceive, List.map_map]
          exact List.map_congr_left fun c _ => (hkeep c).2
        rwa [hmap]
      obtain ⟨hconns, hpieces, hclosed, haccepted⟩ :=
        @ih (k.handleReceive doEcho (ios 0) pic.sock) (fun n => ios (n + 1)) hsd' hserial'
      refine ⟨?_, ?_, hclosed, haccepted⟩
      · intro d hd
        obtain ⟨e, he, hdserial, hdreceived⟩ := hconns d hd
        obtain ⟨c, hc, rfl⟩ := List.mem_map.mp he
        refine ⟨c, hc, hdserial.trans (hkeep c).2, ?_⟩
        rw [hdreceived, handleReceive_streams hsd hserial hc, (hkeep c).2, streamOf_append,
          List.append_assoc]
      · intro p hp
        rcases List.mem_append.mp hp with hp | hp
        · obtain ⟨c, hc, -, hpc⟩ := mem_pieceOf hp
          exact ⟨c, hc, hpc⟩
        · obtain ⟨e, he, hpe⟩ := hpieces p hp
          obtain ⟨c, hc, rfl⟩ := List.mem_map.mp he
          exact ⟨c, hc, hpe.trans (hkeep c).2⟩
    · rw [if_neg hready, if_neg hready]
      exact ih hsd hserial

theorem Streams.receive (h : Streams ps k) (hk : Registry highest pics k) (doEcho : Bool)
    (listenSocket : Finset ℤ) (ios : ℕ → Io) :
    Streams (ps ++ receivePieces doEcho listenSocket pics ios k)
      (receiveClients doEcho listenSocket pics ios k).2.2 := by
  have hall : (k.closed.map (·.1.serial) ++ k.conns.map Conn.serial).Nodup :=
    hk.serials.nodup_iff.mpr List.nodup_range
  obtain ⟨-, hserial, hdisjoint⟩ := List.nodup_append.mp hall
  obtain ⟨hconns, hpieces, hclosed, haccepted⟩ := @receiveClients_streams doEcho k pics ios
    listenSocket hk.nodup hserial
  refine ⟨?_, ?_, ?_⟩
  · intro d hd
    obtain ⟨c, hc, hdserial, hdreceived⟩ := hconns d hd
    rw [hdreceived, h.conns c hc, hdserial, streamOf_append]
  · rw [hclosed]
    intro r hr
    have hnone : streamOf r.1.serial (receivePieces doEcho listenSocket pics ios k) = [] := by
      refine streamOf_eq_nil ?_
      intro p hp heq
      obtain ⟨c, hc, hpc⟩ := hpieces p hp
      exact hdisjoint _ (List.mem_map_of_mem (f := (·.1.serial)) hr) _ (List.mem_map_of_mem hc)
        (heq.symm.trans hpc)
    rw [streamOf_append, hnone, List.append_nil]
    exact h.closed r hr
  · rw [haccepted]
    intro p hp
    rcases List.mem_append.mp hp with hp | hp
    · exact h.known p hp
    · obtain ⟨c, hc, hpc⟩ := hpieces p hp
      have hmem : c.serial ∈ List.range k.accepted :=
        hk.serials.subset (List.mem_append_right _ (List.mem_map_of_mem hc))
      rw [hpc]
      exact List.mem_range.mp hmem

theorem Streams.sclose (h : Streams ps k) (closer : Closer) (sd : ℤ) :
    Streams ps (k.sclose closer sd) := by
  refine ⟨fun c hc => h.conns c (List.mem_filter.mp hc).1, ?_, h.known⟩
  intro r hr
  rcases List.mem_append.mp hr with hr | hr
  · exact h.closed r hr
  · obtain ⟨c, hc, rfl⟩ := List.mem_map.mp hr
    exact h.conns c (List.mem_filter.mp hc).1

theorem Streams.erase {r : List InClient × Sockets} (h : Streams ps r.2) (n : ℕ) :
    Streams ps (eraseClient^[n] r).2 := by
  induction n generalizing r with
  | zero => exact h
  | succ n ih =>
    rw [Function.iterate_succ_apply]
    refine ih ?_
    unfold eraseClient
    split
    · exact h.sclose _ _
    · exact h

theorem Streams.clear (h : Streams ps k) (pics : List InClient) :
    Streams ps (clearClientList pics k) := by
  unfold clearClientList
  induction pics.filter fun pic => ¬ pic.unused generalizing k with
  | nil => exact h
  | cons pic pics ih => exact ih (h.sclose _ _)

theorem Streams.accept (h : Streams ps s.sockets) {outcome : AcceptOutcome}
    (ht : s.accept outcome = some t) : Streams ps t.sockets := by
  cases outcome with
  | failed =>
    cases ht
    exact h
  | accepted newsockfd =>
    simp only [Server.accept] at ht
    split_ifs at ht
    cases ht
    have hnew : Streams ps { s.sockets with
        conns := s.sockets.conns ++ [.fresh newsockfd s.sockets.accepted]
        accepted := s.sockets.accepted + 1 } := by
      refine ⟨?_, h.closed, fun p hp => Nat.lt_succ_of_lt (h.known p hp)⟩
      intro c hc
      rcases List.mem_append.mp hc with hc | hc
      · exact h.conns c hc
      · rw [List.mem_singleton.mp hc]
        exact (streamOf_eq_nil fun p hp => (h.known p hp).ne).symm
    rw [(addClient_same _ newsockfd).2.2]
    exact hnew

theorem step_streams {e : Event} (hs : s.Inv) (h : Streams ps s.sockets)
    (ht : step s e = some t) : Streams (ps ++ s.pieces e) t.sockets := by
  unfold step at ht
  split at ht
  · rename_i key outcome hpc
    obtain ⟨hkey, -⟩ := checkKey_inv hs hpc key
    obtain ⟨-, hsame⟩ := checkKey_same s key
    rcases hk : s.checkKey key with ⟨u, exits⟩
    rw [hk] at hkey hsame
    rw [← hsame] at h
    simp only [Server.iterate, hk] at ht
    have hnone : (exits = true ∨ u.isPaused = true ∨ setupFdSet u.sockfd u.vInClients = none ∨
        ∀ set accept ios, outcome = .ready set accept ios → u.sockfd ∈ set) →
          ps ++ s.pieces (.iterate key outcome) = ps := by
      intro hno
      cases outcome with
      | failed | timedOut => exact List.append_nil ps
      | ready set accept ios =>
        simp only [Server.pieces, hk]
        rw [if_pos (hno.imp_right (Or.imp_right (Or.imp_right fun hl => hl set accept ios rfl))),
          List.append_nil]
    cases exits with
    | true =>
      cases ht
      rw [hnone (Or.inl rfl)]
      exact h
    | false =>
      dsimp only at ht
      split_ifs at ht with hpaused
      · cases ht
        rw [hnone (Or.inr (Or.inl hpaused))]
        exact h
      · unfold Server.select at ht
        cases hset : setupFdSet u.sockfd u.vInClients with
        | none =>
          rw [hset] at ht
          cases ht
          rw [hnone (Or.inr (Or.inr (Or.inl hset)))]
          exact h
        | some listenSocket =>
          rw [hset] at ht
          cases outcome with
          | failed | timedOut =>
            cases ht
            rw [hnone (Or.inr (Or.inr (Or.inr ?_)))]
            · exact h
            · intro set accept ios heq
              cases heq
          | ready set accept ios =>
            simp only [Server.selectFrom] at ht
            split_ifs at ht with hvalid hlisten
            · rw [hnone (Or.inr (Or.inr (Or.inr ?_)))]
              · exact h.accept ht
              · rintro set' accept' ios' heq
                cases heq
                exact hlisten
            · cases ht
              simp only [Server.pieces, hk]
              rw [if_neg (by simp [hpaused, hset, hlisten])]
              exact (h.receive hkey.registry u.doEcho set ios).erase _
  · cases ht
    have hnone : s.pieces .clear = [] := rfl
    rw [hnone, List.append_nil]
    exact h.clear _
  · cases ht

theorem Logged.Mixes.start (sockfd : ℤ) (doEcho : Bool) (old : List Byte) :
    (Logged.start sockfd doEcho old).Mixes old [] where
  inv := Or.inr (Server.Inv.start sockfd doEcho)
  log := ⟨fun _ => ⟨rfl, rfl⟩, nofun, nofun⟩
  streams := ⟨nofun, nofun, nofun⟩

theorem step_undefined {e : Event} (hpc : s.pc = .undefined) : step s e = none := by
  unfold step
  split
  · rename_i heq
    cases hpc.symm.trans heq
  · rename_i heq
    cases hpc.symm.trans heq
  · rfl

theorem Logged.Mixes.step {s t : Logged} {e : Event × (ℕ → Bool × ℕ)} (hs : s.Mixes old ps)
    (ht : s.step e = some t) : t.Mixes old (ps ++ s.server.pieces e.1) := by
  obtain ⟨u, hu, rfl⟩ := Option.map_eq_some_iff.mp ht
  have hinv : s.server.Inv := by
    apply hs.inv.resolve_left
    intro hpc
    rw [step_undefined hpc] at hu
    cases hu
  refine ⟨?_, ?_, step_streams hinv hs.streams hu⟩
  · rcases step_inv hinv hu with ⟨-, hgood⟩ | ⟨-, hbad⟩
    · exact Or.inr hgood
    · exact Or.inl hbad
  · rw [merged_append]
    exact writePieces_logs hs.log _ _

end

/-- In every run there is one sequence of pieces that is both: piece by piece what was received
on each connection, open or closed, and all together what the log file has behind its old content
(all of it, or a first part since the file was given up). -/
theorem message_log (sockfd : ℤ) (doEcho : Bool) (old : List Byte)
    (es : List (Event × (ℕ → Bool × ℕ))) {s : Logged}
    (h : runs Logged.step (.start sockfd doEcho old) es = some s) :
    ∃ ps : List Piece,
      (∀ c ∈ s.server.sockets.conns, c.received = streamOf c.serial ps) ∧
      (∀ r ∈ s.server.sockets.closed, r.1.received = streamOf r.1.serial ps) ∧
      (∀ p ∈ ps, p.1 < s.server.sockets.accepted) ∧
      (s.msgFile.handle = .opened → s.msgFile.content = old ++ merged ps) ∧
      ∃ logged, logged <+: merged ps ∧ s.msgFile.content = old ++ logged := by
  obtain ⟨ps, hs⟩ : ∃ ps, s.Mixes old ps :=
    runs_invariant (fun s : Logged => ∃ ps, s.Mixes old ps)
      (fun _ _ _ ⟨ps, hs⟩ ht => ⟨_, hs.step ht⟩) ⟨[], Logged.Mixes.start sockfd doEcho old⟩ h
  refine ⟨ps, hs.streams.conns, hs.streams.closed, hs.streams.known, hs.log.opened, ?_⟩
  cases hhandle : s.msgFile.handle with
  | null =>
    have hold := (hs.log.null hhandle).1
    exact ⟨[], List.nil_prefix, by rw [hold, List.append_nil]⟩
  | opened => exact ⟨merged ps, List.prefix_rfl, hs.log.opened hhandle⟩
  | failed =>
    rcases hs.log.failed hhandle with hold | ⟨p, hp, hcontent⟩
    · exact ⟨[], List.nil_prefix, by rw [hold, List.append_nil]⟩
    · exact ⟨p, hp, hcontent⟩

/-- Two connections, and two pieces of which the disk takes the first only. -/
def mixedRun : List (Event × (ℕ → Bool × ℕ)) :=
  let received (b : Byte) : Io :=
    ⟨.received [b] ⟨Nat.one_pos, Nat.le_of_ble_eq_true rfl⟩, [], .failed⟩
  let disk (n : ℕ) : Bool × ℕ := (true, 1 - n)
  [(.iterate .none (.ready {3} (.accepted 4) fun _ => received 0x61#8), disk),
    (.iterate .none (.ready {3} (.accepted 5) fun _ => received 0x61#8), disk),
    (.iterate .none (.ready {4, 5} .failed fun n => received (if n = 0 then 0x61#8 else 0x62#8)),
      disk)]

theorem message_log_mixed :
    ∃ s, runs Logged.step (.start 3 false [0x0A#8]) mixedRun = some s ∧
      s.msgFile.content = [0x0A#8, 0x61#8] ∧
      ∃ ps : List Piece, ∀ c ∈ s.server.sockets.conns, c.received = streamOf c.serial ps := by
  have hrun : (runs Logged.step (.start 3 false [0x0A#8]) mixedRun).map (·.msgFile.content) =
      some [0x0A#8, 0x61#8] := by decide
  obtain ⟨s, hs, hview⟩ := Option.map_eq_some_iff.mp hrun
  obtain ⟨ps, hconns, -⟩ := message_log 3 false [0x0A#8] mixedRun hs
  exact ⟨s, hs, hview, ps, hconns⟩

end TcpTests.SimpServer
