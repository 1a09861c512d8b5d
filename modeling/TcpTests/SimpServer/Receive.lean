import TcpTests.SimpServer.Registry

/-! The connections of `simp_server` one by one: whatever the loop does with its clients, a
connection is what calls of `handle_receive` make of it. -/
namespace TcpTests.SimpServer
open Lib

/-- A connection after calls of `handle_receive` of a server that echoes. -/
def Conn.after (c : Conn) (ios : List Io) : Conn := ios.foldl (fun c io => c.handleReceive true io) c

/-- A connection was fresh once, and since then `handle_receive` was called on it. -/
def Conn.Served (c : Conn) : Prop := ∃ ios, c = (Conn.fresh c.sd c.serial).after ios

section
variable {k : Sockets} {c : Conn} {io : Io} {ios : ℕ → Io} {pics : List InClient}
  {listenSocket : Finset ℤ} {s t : Server}

theorem Conn.Served.fresh (sd : ℤ) (serial : ℕ) : (Conn.fresh sd serial).Served := ⟨[], rfl⟩

theorem Conn.Served.handleReceive (hc : c.Served) (io : Io) : (c.handleReceive true io).Served := by
  obtain ⟨ios, hios⟩ := hc
  obtain ⟨hsd, hserial, -⟩ := @Conn.handleReceive_fields true io c
  refine ⟨ios ++ [io], ?_⟩
  rw [hsd, hserial, Conn.after, List.foldl_append]
  change c.handleReceive true io = ((Conn.fresh c.sd c.serial).after ios).handleReceive true io
  rw [← hios]

section
variable {P : Conn → Prop} {doEcho : Bool}

theorem receiveClients_conns (hP : ∀ c io, P c → P (c.handleReceive doEcho io))
    (hk : ∀ c ∈ k.conns, P c) :
    ∀ c ∈ (receiveClients doEcho listenSocket pics ios k).2.2.conns, P c := by
  induction pics generalizing k ios with
  | nil => exact hk
  | cons pic pics ih =>
    unfold receiveClients
    by_cases hready : ¬ pic.unused ∧ pic.sock ∈ listenSocket
    · rw [if_pos hready]
      apply ih
      intro c hc
      obtain ⟨d, hd, rfl⟩ := List.mem_map.mp hc
      by_cases hsd : d.sd = pic.sock
      · rw [if_pos hsd]
        exact hP d (ios 0) (hk d hd)
      · rw [if_neg hsd]
        exact hk d hd
    · rw [if_neg hready]
      exact ih hk

theorem sclose_conns {closer : Closer} {sd : ℤ} (hk : ∀ c ∈ k.conns, P c) :
    ∀ c ∈ (k.sclose closer sd).conns, P c :=
  fun c hc => hk c (List.mem_filter.mp hc).1

theorem eraseClient_conns {r : List InClient × Sockets} (hr : ∀ c ∈ r.2.conns, P c) (n : ℕ) :
    ∀ c ∈ (eraseClient^[n] r).2.conns, P c := by
  induction n generalizing r with
  | zero => exact hr
  | succ n ih =>
    rw [Function.iterate_succ_apply]
    apply ih
    unfold eraseClient
    split
    · exact sclose_conns hr
    · exact hr

theorem processClients_conns (hP : ∀ c io, P c → P (c.handleReceive doEcho io))
    (hk : ∀ c ∈ k.conns, P c) :
    ∀ c ∈ (processClients doEcho listenSocket pics ios k).2.conns, P c :=
  eraseClient_conns (receiveClients_conns hP hk) _

theorem clearClientList_conns (hk : ∀ c ∈ k.conns, P c) :
    ∀ c ∈ (clearClientList pics k).conns, P c := by
  unfold clearClientList
  induction pics.filter fun pic => ¬ pic.unused generalizing k with
  | nil => exact hk
  | cons pic pics ih => exact ih (sclose_conns hk)

theorem addClient_same (s : Server) (newsockfd : ℤ) :
    (s.addClient newsockfd).sockfd = s.sockfd ∧ (s.addClient newsockfd).doEcho = s.doEcho ∧
      (s.addClient newsockfd).sockets = s.sockets := by
  unfold Server.addClient
  split
  · exact ⟨rfl, rfl, rfl⟩
  · split <;> exact ⟨rfl, rfl, rfl⟩

theorem accept_conns (hs : ∀ c ∈ s.sockets.conns, P c) {outcome : AcceptOutcome}
    (hnew : ∀ newsockfd, outcome = .accepted newsockfd →
      P (.fresh newsockfd s.sockets.accepted))
    (h : s.accept outcome = some t) : ∀ c ∈ t.sockets.conns, P c := by
  cases outcome with
  | failed =>
    cases h
    exact hs
  | accepted newsockfd =>
    simp only [Server.accept] at h
    split_ifs at h
    cases h
    rw [(addClient_same _ newsockfd).2.2]
    intro c hc
    rcases List.mem_append.mp hc with hc | hc
    · exact hs c hc
    · rw [List.mem_singleton.mp hc]
      exact hnew newsockfd rfl

theorem select_conns (hP : ∀ c io, P c → P (c.handleReceive s.doEcho io))
    (hs : ∀ c ∈ s.sockets.conns, P c) {outcome : SelectOutcome} {key : Key}
    (hnew : ∀ newsockfd, (Event.iterate key outcome).newsockfd s.sockfd = some newsockfd →
      P (.fresh newsockfd s.sockets.accepted))
    (h : s.select outcome = some t) : ∀ c ∈ t.sockets.conns, P c := by
  unfold Server.select at h
  split at h
  · cases outcome with
    | failed | timedOut =>
      cases h
      exact hs
    | ready set accept ios =>
      simp only [Server.selectFrom] at h
      split_ifs at h with hset hlisten
      · apply accept_conns hs ?_ h
        rintro newsockfd rfl
        exact hnew newsockfd (if_pos hlisten)
      · cases h
        exact processClients_conns hP hs
  · cases h
    exact hs

theorem select_same {outcome : SelectOutcome} (h : s.select outcome = some t) :
    t.sockfd = s.sockfd ∧ t.doEcho = s.doEcho := by
  unfold Server.select at h
  split at h
  · cases outcome with
    | failed | timedOut =>
      cases h
      exact ⟨rfl, rfl⟩
    | ready set accept ios =>
      simp only [Server.selectFrom] at h
      split_ifs at h
      · cases accept with
        | failed =>
          cases h
          exact ⟨rfl, rfl⟩
        | accepted newsockfd =>
          simp only [Server.accept] at h
          split_ifs at h
          cases h
          obtain ⟨hsockfd, hecho, -⟩ := addClient_same { s with
            sockets := { s.sockets with
              conns := s.sockets.conns ++ [.fresh newsockfd s.sockets.accepted]
              accepted := s.sockets.accepted + 1 } } newsockfd
          exact ⟨hsockfd, hecho⟩
      · cases h
        exact ⟨rfl, rfl⟩
  · cases h
    exact ⟨rfl, rfl⟩

theorem checkKey_same (s : Server) (key : Key) :
    (s.checkKey key).1.sockfd = s.sockfd ∧ (s.checkKey key).1.sockets = s.sockets := by
  cases key <;> exact ⟨rfl, rfl⟩

/-- What holds of the open connections and of a new one, and is kept by `handle_receive`, holds of
the connections after a step. -/
theorem step_conns {e : Event}
    (hP : ∀ key outcome, e = .iterate key outcome → ∀ c io, P c →
      P (c.handleReceive (s.checkKey key).1.doEcho io))
    (hs : ∀ c ∈ s.sockets.conns, P c)
    (hnew : ∀ newsockfd, e.newsockfd s.sockfd = some newsockfd →
      P (.fresh newsockfd s.sockets.accepted))
    (h : step s e = some t) : ∀ c ∈ t.sockets.conns, P c := by
  unfold step at h
  split at h
  · rename_i key outcome hpc
    have hP := hP key outcome rfl
    obtain ⟨hsockfd, hsockets⟩ := checkKey_same s key
    unfold Server.iterate at h
    generalize s.checkKey key = checked at h hsockets hsockfd hP
    obtain ⟨u, exits⟩ := checked
    dsimp only at h hsockets hsockfd hP
    rw [← hsockets] at hs hnew
    rw [← hsockfd] at hnew
    cases exits with
    | true =>
      cases h
      exact hs
    | false =>
      dsimp only at h
      split_ifs at h
      · cases h
        exact hs
      · exact select_conns hP hs hnew h
  · cases h
    exact clearClientList_conns hs
  · cases h

theorem step_same {e : Event} (h : step s e = some t) : t.sockfd = s.sockfd ∧
    (∀ key outcome, e = .iterate key outcome → t.doEcho = (s.checkKey key).1.doEcho) ∧
    (e = .clear → t.doEcho = s.doEcho) := by
  unfold step at h
  split at h
  · rename_i key outcome hpc
    obtain ⟨hsockfd, -⟩ := checkKey_same s key
    unfold Server.iterate at h
    rw [← hsockfd]
    suffices hsame : t.sockfd = (s.checkKey key).1.sockfd ∧
        t.doEcho = (s.checkKey key).1.doEcho by
      refine ⟨hsame.1, ?_, nofun⟩
      rintro key' outcome' heq
      cases heq
      exact hsame.2
    generalize s.checkKey key = checked at h ⊢
    obtain ⟨u, exits⟩ := checked
    dsimp only at h ⊢
    cases exits with
    | true =>
      cases h
      exact ⟨rfl, rfl⟩
    | false =>
      dsimp only at h
      split_ifs at h
      · cases h
        exact ⟨rfl, rfl⟩
      · exact select_same h
  · cases h
    exact ⟨rfl, nofun, fun _ => rfl⟩
  · cases h

end

/-- The key that turns the echo off is not pressed. -/
def KeepsEcho : Event → Prop
  | .iterate key _ => key ≠ .echo
  | .clear => True

theorem step_served {e : Event} (hs : ∀ c ∈ s.sockets.conns, c.Served) (hecho : s.doEcho = true)
    (he : KeepsEcho e) (h : step s e = some t) :
    t.doEcho = true ∧ ∀ c ∈ t.sockets.conns, c.Served := by
  have hkey : ∀ key outcome, e = .iterate key outcome → (s.checkKey key).1.doEcho = true := by
    rintro key outcome rfl
    cases key with
    | echo => exact absurd rfl he
    | none | pause | esc | other => exact hecho
  constructor
  · cases e with
    | iterate key outcome => exact ((step_same h).2.1 key outcome rfl).trans (hkey key outcome rfl)
    | clear => exact ((step_same h).2.2 rfl).trans hecho
  · apply step_conns ?_ hs (fun newsockfd _ => Conn.Served.fresh newsockfd _) h
    intro key outcome heq c io hc
    rw [hkey key outcome heq]
    exact hc.handleReceive io

end

/-- In every run of a server that echoes, with any number of clients. -/
theorem conns_served (sockfd : ℤ) (es : List Event) (s : Server)
    (hr : runs step (.start sockfd true) es = some s) (hes : ∀ e ∈ es, KeepsEcho e) :
    ∀ c ∈ s.sockets.conns, c.Served := by
  have hs : s.doEcho = true ∧ ∀ c ∈ s.sockets.conns, c.Served :=
    runs_invariant_of KeepsEcho (fun s => s.doEcho = true ∧ ∀ c ∈ s.sockets.conns, c.Served)
      (fun _ _ _ hs he h => step_served hs.2 hs.1 he h) ⟨rfl, nofun⟩ hes hr
  exact hs.2

end TcpTests.SimpServer
