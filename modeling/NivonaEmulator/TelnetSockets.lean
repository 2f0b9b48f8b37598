import NivonaEmulator.Lib.Handles
import NivonaEmulator.Lib.Runs

/-!
# Descriptors of the telnet server

`listen_task` accepts a client, puts its descriptor into `s_client_fd`, shuts the
old client down and creates a `client_task`; a client task closes its descriptor
when it ends, and `telnet_vprintf` mirrors every log line to `s_client_fd`.  The
TCP stack gives closed descriptors out again, to telnet clients and to the other
sockets of the firmware.  The tasks are interleaved statement by statement.  What
is sent under the mutex, and what a client task sends, reads and closes, always
meets the connection it is meant for; the shutdown of an evicted client, which
is outside the mutex, does so as long as that client has not closed yet.
-/

namespace Nivona

/-- What is behind a descriptor: the connections of `listen_task` in the order in
which they were accepted, and the other sockets of the firmware. -/
inductive Socket
  | telnet (conn : ℕ)
  | other (n : ℕ)
  deriving DecidableEq, Repr

/-- A descriptor in a variable of the program, with the connection it was given
out for.  The program itself knows the number alone. -/
structure Descriptor where
  fd : ℕ
  conn : ℕ
  deriving DecidableEq, Repr

/-- Program points of `listen_task` in its loop. -/
inductive ListenPoint
  | accepting
  /-- before the mutex section -/
  | accepted (cfd : Descriptor)
  /-- before `shutdown` of the old client, if there was one -/
  | evicting (cfd : Descriptor) (old : Option Descriptor)
  /-- before `xTaskCreate` -/
  | creating (cfd : Descriptor)
  deriving DecidableEq, Repr

/-- Program points of a `client_task`. -/
inductive ClientPoint
  /-- sends, receives and runs commands -/
  | serving
  /-- out of its loop, before it takes the mutex -/
  | leaving
  /-- holds the mutex, has cleared the slot, before `close` -/
  | cleared
  deriving DecidableEq, Repr

/-- Who holds `s_mutex`: a logging task with the descriptor it has read, or the
client task of a connection that cleans up. -/
inductive MutexHolder
  | logging (fd : Option Descriptor)
  | cleanup (conn : ℕ)
  deriving DecidableEq, Repr

/-- A call on a descriptor, with what it met there. -/
inductive SocketCall
  /-- `send` of `telnet_vprintf` -/
  | log (fd : Descriptor) (met : Option Socket)
  /-- a `send` or `recv` of the client task -/
  | io (fd : Descriptor) (met : Option Socket)
  | close (fd : Descriptor) (met : Option Socket)
  | shutdown (fd : Descriptor) (met : Option Socket)
  deriving DecidableEq, Repr

/-- The descriptor table of the stack, the variables and tasks of the server, and
the calls made so far. -/
structure TelnetServer where
  sockets : Handles.Table ℕ Socket
  /-- connections accepted so far -/
  accepted : ℕ
  /-- other sockets opened so far -/
  others : ℕ
  /-- `s_client_fd`; `none` is -1 -/
  clientFd : Option Descriptor
  mutex : Option MutexHolder
  listener : ListenPoint
  /-- the client task of each connection -/
  clients : ℕ → Option (Descriptor × ClientPoint)
  calls : List SocketCall

inductive TelnetStep
  /-- the rest of the firmware opens or closes a socket -/
  | openOther (fd : ℕ)
  | closeOther (fd : ℕ)
  | accept (fd : ℕ)
  | swap
  | evict
  | create (ok : Bool)
  | clientIo (conn : ℕ)
  | clientLeave (conn : ℕ)
  | clientClear (conn : ℕ)
  | clientClose (conn : ℕ)
  | logTake
  | logSend
  deriving DecidableEq, Repr

/-- The server before its first client. -/
def TelnetServer.start : TelnetServer :=
  { sockets := .empty
    accepted := 0
    others := 0
    clientFd := none
    mutex := none
    listener := .accepting
    clients := fun _ => none
    calls := [] }

/-- A step that its task, the mutex or the stack does not allow does nothing: the
stack gives out free descriptors only, and the rest of the firmware closes its own
sockets only. -/
def telnetStep (s : TelnetServer) : TelnetStep → TelnetServer
  | .openOther fd =>
      match s.sockets.owner fd with
      | none =>
          { s with sockets := s.sockets.open fd (.other s.others), others := s.others + 1 }
      | some _ => s
  | .closeOther fd =>
      match s.sockets.owner fd with
      | some (.other _) => { s with sockets := s.sockets.close fd }
      | _ => s
  | .accept fd =>
      match s.listener, s.sockets.owner fd with
      | .accepting, none =>
          { s with
            sockets := s.sockets.open fd (.telnet s.accepted)
            accepted := s.accepted + 1
            listener := .accepted ⟨fd, s.accepted⟩ }
      | _, _ => s
  | .swap =>
      match s.listener, s.mutex with
      | .accepted cfd, none =>
          { s with clientFd := some cfd, listener := .evicting cfd s.clientFd }
      | _, _ => s
  | .evict =>
      match s.listener with
      | .evicting cfd none => { s with listener := .creating cfd }
      | .evicting cfd (some old) =>
          { s with
            listener := .creating cfd
            calls := s.calls ++ [.shutdown old (s.sockets.owner old.fd)] }
      | _ => s
  | .create ok =>
      match s.listener with
      | .creating cfd =>
          { s with
            listener := .accepting
            clients :=
              if ok then Function.update s.clients cfd.conn (some (cfd, .serving))
              else s.clients }
      | _ => s
  | .clientIo conn =>
      match s.clients conn with
      | some (fd, .serving) => { s with calls := s.calls ++ [.io fd (s.sockets.owner fd.fd)] }
      | _ => s
  | .clientLeave conn =>
      match s.clients conn with
      | some (fd, .serving) =>
          { s with clients := Function.update s.clients conn (some (fd, .leaving)) }
      | _ => s
  | .clientClear conn =>
      match s.clients conn, s.mutex with
      | some (fd, .leaving), none =>
          { s with
            mutex := some (.cleanup conn)
            clientFd := if s.clientFd.map Descriptor.fd = some fd.fd then none else s.clientFd
            clients := Function.update s.clients conn (some (fd, .cleared)) }
      | _, _ => s
  | .clientClose conn =>
      match s.clients conn with
      | some (fd, .cleared) =>
          { s with
            sockets := s.sockets.close fd.fd
            mutex := none
            clients := Function.update s.clients conn none
            calls := s.calls ++ [.close fd (s.sockets.owner fd.fd)] }
      | _ => s
  | .logTake =>
      match s.mutex with
      | none => { s with mutex := some (.logging s.clientFd) }
      | some _ => s
  | .logSend =>
      match s.mutex with
      | some (.logging none) => { s with mutex := none }
      | some (.logging (some fd)) =>
          { s with mutex := none, calls := s.calls ++ [.log fd (s.sockets.owner fd.fd)] }
      | _ => s

/-! ## The invariant -/

/-- The descriptors of `listen_task` that it has yet to hand over. -/
def ListenPoint.held : ListenPoint → Option Descriptor
  | .accepting => none
  | .accepted cfd | .evicting cfd _ | .creating cfd => some cfd

/-- The call met the connection that its descriptor was given out for. -/
def SocketCall.OnTarget : SocketCall → Prop
  | .log fd met | .io fd met | .close fd met => met = some (.telnet fd.conn)
  | .shutdown _ _ => True

/-- The connections that have been closed, in order. -/
def closedConns (calls : List SocketCall) : List ℕ :=
  calls.filterMap fun
    | .close fd _ => some fd.conn
    | _ => none

/-- Behind every descriptor that a task uses is the connection it was given out
for. -/
structure TelnetServer.Inv (s : TelnetServer) : Prop where
  sockets : s.sockets.Ok
  telnet_lt : ∀ conn, ¬s.sockets.New (.telnet conn) → conn < s.accepted
  other_lt : ∀ n, ¬s.sockets.New (.other n) → n < s.others
  client : ∀ conn fd point, s.clients conn = some (fd, point) →
    fd.conn = conn ∧ s.sockets.owner fd.fd = some (.telnet conn)
  held : ∀ cfd, s.listener.held = some cfd →
    s.clients cfd.conn = none ∧ s.sockets.owner cfd.fd = some (.telnet cfd.conn)
  slot : ∀ fd, s.clientFd = some fd → s.sockets.owner fd.fd = some (.telnet fd.conn)
  cleared : ∀ conn fd, s.clients conn = some (fd, .cleared) →
    s.mutex = some (.cleanup conn) ∧ ∀ fd', s.clientFd = some fd' → fd'.conn ≠ conn
  logging : ∀ fd, s.mutex = some (.logging fd) → fd = s.clientFd
  old : ∀ cfd fd, s.listener = .evicting cfd (some fd) →
    s.sockets.Noted fd.fd (.telnet fd.conn)
  onTarget : ∀ call ∈ s.calls, call.OnTarget
  closed : ∀ conn, conn ∈ closedConns s.calls ↔ .telnet conn ∈ s.sockets.ended
  closed_nodup : (closedConns s.calls).Nodup
  shutdown : ∀ i fd met, s.calls[i]? = some (.shutdown fd met) →
    (met = some (.telnet fd.conn) ↔ fd.conn ∉ closedConns (s.calls.take i))

theorem TelnetServer.inv_start : TelnetServer.start.Inv := by
  constructor
  case sockets => exact Handles.ok_empty
  case telnet_lt =>
    intro conn hnew
    exact absurd ⟨fun h => by simp [start, Handles.Table.empty], by simp [start,
      Handles.Table.empty]⟩ hnew
  case other_lt =>
    intro n hnew
    exact absurd ⟨fun h => by simp [start, Handles.Table.empty], by simp [start,
      Handles.Table.empty]⟩ hnew
  all_goals simp [start, ListenPoint.held, Handles.Table.empty, closedConns]

section

variable {s : TelnetServer}

/-- A call that closes nothing and meets what it should. -/
theorem TelnetServer.Inv.addCall (h : s.Inv) {call : SocketCall}
    (hclose : ∀ fd met, call ≠ .close fd met) (htarget : call.OnTarget)
    (hshutdown : ∀ fd met, call = .shutdown fd met →
      (met = some (.telnet fd.conn) ↔ fd.conn ∉ closedConns s.calls)) :
    ({ s with calls := s.calls ++ [call] } : TelnetServer).Inv := by
  have hsame : closedConns (s.calls ++ [call]) = closedConns s.calls := by
    cases call with
    | close fd met => exact absurd rfl (hclose fd met)
    | _ => simp [closedConns]
  refine { h with onTarget := ?_, closed := ?_, closed_nodup := ?_, shutdown := ?_ }
  · intro call' hmem
    rcases List.mem_append.mp hmem with hold | hnew
    · exact h.onTarget call' hold
    · obtain rfl := List.mem_singleton.mp hnew
      exact htarget
  · simpa only [hsame] using h.closed
  · simpa only [hsame] using h.closed_nodup
  · intro i fd met hi
    rcases Nat.lt_trichotomy i s.calls.length with hlt | rfl | hgt
    · rw [List.getElem?_append_left hlt] at hi
      rw [List.take_append_of_le_length (Nat.le_of_lt hlt)]
      exact h.shutdown i fd met hi
    · rw [List.getElem?_append_right (Nat.le_refl _), Nat.sub_self] at hi
      rw [List.take_left]
      exact hshutdown fd met (Option.some.inj hi)
    · have hlen : (s.calls ++ [call]).length ≤ i := by
        rw [List.length_append, List.length_singleton]
        exact hgt
      rw [List.getElem?_eq_none hlen] at hi
      exact absurd hi (by simp)

/-- The stack gives out a free descriptor for something new. -/
theorem TelnetServer.Inv.openSocket (h : s.Inv) {fd : ℕ} {k : Socket} (accepted others : ℕ)
    (hfree : s.sockets.owner fd = none) (hnew : s.sockets.New k)
    (haccepted : s.accepted ≤ accepted) (hothers : s.others ≤ others)
    (htelnet : ∀ conn, k = .telnet conn → conn < accepted)
    (hother : ∀ n, k = .other n → n < others) :
    ({ s with sockets := s.sockets.open fd k, accepted := accepted, others := others } :
      TelnetServer).Inv where
  sockets := h.sockets.open hnew
  telnet_lt conn hknown := by
    by_cases hk : k = .telnet conn
    · exact htelnet conn hk
    · rw [Handles.new_open hfree (Ne.symm hk)] at hknown
      exact Nat.lt_of_lt_of_le (h.telnet_lt conn hknown) haccepted
  other_lt n hknown := by
    by_cases hk : k = .other n
    · exact hother n hk
    · rw [Handles.new_open hfree (Ne.symm hk)] at hknown
      exact Nat.lt_of_lt_of_le (h.other_lt n hknown) hothers
  client conn fd' point hclient := by
    obtain ⟨hconn, howner⟩ := h.client conn fd' point hclient
    exact ⟨hconn, Handles.owner_open_of_free hfree howner⟩
  held cfd hheld := by
    obtain ⟨hnone, howner⟩ := h.held cfd hheld
    exact ⟨hnone, Handles.owner_open_of_free hfree howner⟩
  slot fd' hslot := Handles.owner_open_of_free hfree (h.slot fd' hslot)
  cleared := h.cleared
  logging := h.logging
  old cfd fd' hold := (h.old cfd fd' hold).open hfree
  onTarget := h.onTarget
  closed := h.closed
  closed_nodup := h.closed_nodup
  shutdown := h.shutdown

/-- A connection that nobody has accepted has no task. -/
theorem TelnetServer.Inv.clients_none (h : s.Inv) {conn : ℕ} (hconn : s.accepted ≤ conn) :
    s.clients conn = none := by
  rcases hclient : s.clients conn with _ | ⟨fd, point⟩
  · rfl
  · obtain ⟨-, howner⟩ := h.client conn fd point hclient
    have hlt := h.telnet_lt conn fun hnew => hnew.1 fd.fd howner
    exact absurd hlt (Nat.not_lt.mpr hconn)

theorem TelnetServer.Inv.openOther (h : s.Inv) {fd : ℕ} (hfree : s.sockets.owner fd = none) :
    ({ s with sockets := s.sockets.open fd (.other s.others), others := s.others + 1 } :
      TelnetServer).Inv := by
  have hnew : s.sockets.New (.other s.others) := by
    by_contra hknown
    exact Nat.lt_irrefl _ (h.other_lt s.others hknown)
  refine h.openSocket s.accepted (s.others + 1) hfree hnew (Nat.le_refl _) (Nat.le_succ _) ?_ ?_
  · intro conn hconn
    exact absurd hconn (by simp)
  · intro n hn
    obtain rfl := Socket.other.inj hn
    exact Nat.lt_succ_self _

theorem TelnetServer.Inv.accept (h : s.Inv) {fd : ℕ} (hfree : s.sockets.owner fd = none) :
    ({ s with
        sockets := s.sockets.open fd (.telnet s.accepted)
        accepted := s.accepted + 1
        listener := .accepted ⟨fd, s.accepted⟩ } : TelnetServer).Inv := by
  have hnew : s.sockets.New (.telnet s.accepted) := by
    by_contra hknown
    exact Nat.lt_irrefl _ (h.telnet_lt s.accepted hknown)
  have hopen := h.openSocket (s.accepted + 1) s.others hfree hnew
    (Nat.le_succ _) (Nat.le_refl _)
    (fun conn hconn => Socket.telnet.inj hconn ▸ Nat.lt_succ_self _)
    (fun n hn => absurd hn (by simp))
  refine { hopen with held := ?_, old := ?_ }
  · intro cfd hheld
    obtain rfl := Option.some.inj hheld
    exact ⟨h.clients_none (Nat.le_refl _), Handles.owner_open_self⟩
  · intro cfd fd' hold
    exact absurd hold (by simp)

theorem TelnetServer.Inv.closeOther (h : s.Inv) {fd n : ℕ}
    (hother : s.sockets.owner fd = some (.other n)) :
    ({ s with sockets := s.sockets.close fd } : TelnetServer).Inv := by
  have hkeep : ∀ {fd' conn}, s.sockets.owner fd' = some (.telnet conn) →
      (s.sockets.close fd).owner fd' = some (.telnet conn) := by
    intro fd' conn howner
    exact Handles.owner_close_of_owner_ne hother howner (by simp)
  have hended : ∀ conn, .telnet conn ∈ (s.sockets.close fd).ended ↔
      .telnet conn ∈ s.sockets.ended := by
    intro conn
    rw [Handles.mem_ended_close, hother]
    simp
  exact
    { sockets := h.sockets.close
      telnet_lt := fun conn hknown => h.telnet_lt conn (by rwa [Handles.new_close] at hknown)
      other_lt := fun n hknown => h.other_lt n (by rwa [Handles.new_close] at hknown)
      client := fun conn fd' point hclient =>
        ⟨(h.client conn fd' point hclient).1, hkeep (h.client conn fd' point hclient).2⟩
      held := fun cfd hheld => ⟨(h.held cfd hheld).1, hkeep (h.held cfd hheld).2⟩
      slot := fun fd' hslot => hkeep (h.slot fd' hslot)
      cleared := h.cleared
      logging := h.logging
      old := fun cfd fd' hold => (h.old cfd fd' hold).close
      onTarget := h.onTarget
      closed := fun conn => (h.closed conn).trans (hended conn).symm
      closed_nodup := h.closed_nodup
      shutdown := h.shutdown }

/-- The old client goes into the hands of the listener, the new one into the slot. -/
theorem TelnetServer.Inv.swap (h : s.Inv) {cfd : Descriptor} (hcfd : s.listener = .accepted cfd)
    (hmutex : s.mutex = none) :
    ({ s with clientFd := some cfd, listener := .evicting cfd s.clientFd } :
      TelnetServer).Inv := by
  have hheld := h.held cfd (by rw [hcfd]; rfl)
  refine { h with held := ?_, slot := ?_, cleared := ?_, logging := ?_, old := ?_ }
  · intro cfd' hcfd'
    obtain rfl := Option.some.inj hcfd'
    exact hheld
  · intro fd hfd
    obtain rfl := Option.some.inj hfd
    exact hheld.2
  · intro conn fd hclient
    obtain ⟨hcleanup, -⟩ := h.cleared conn fd hclient
    exact absurd hcleanup (by simp [hmutex])
  · intro fd hfd
    exact absurd hfd (by simp [hmutex])
  · intro cfd' fd hold
    obtain ⟨-, hslot⟩ := ListenPoint.evicting.inj hold
    exact .inl (h.slot fd hslot)

/-- The listener goes on with the descriptor it holds. -/
theorem TelnetServer.Inv.creating (h : s.Inv) {cfd : Descriptor}
    (hcfd : s.listener.held = some cfd) :
    ({ s with listener := .creating cfd } : TelnetServer).Inv := by
  refine { h with held := ?_, old := ?_ }
  · intro cfd' hcfd'
    obtain rfl := Option.some.inj hcfd'
    exact h.held cfd hcfd
  · intro cfd' fd hold
    exact absurd hold (by simp)

theorem TelnetServer.Inv.create (h : s.Inv) {cfd : Descriptor} (hcfd : s.listener = .creating cfd)
    (ok : Bool) :
    ({ s with
        listener := .accepting
        clients :=
          if ok then Function.update s.clients cfd.conn (some (cfd, .serving))
          else s.clients } : TelnetServer).Inv := by
  obtain ⟨hnone, howner⟩ := h.held cfd (by rw [hcfd]; rfl)
  have hclients : ∀ conn fd point,
      (if ok then Function.update s.clients cfd.conn (some (cfd, .serving)) else s.clients)
        conn = some (fd, point) →
      s.clients conn = some (fd, point) ∨ conn = cfd.conn ∧ fd = cfd ∧ point = .serving := by
    intro conn fd point hclient
    cases ok with
    | false => exact .inl (by simpa using hclient)
    | true =>
        by_cases hconn : conn = cfd.conn
        · subst hconn
          have hnew : cfd = fd ∧ ClientPoint.serving = point := by simpa using hclient
          exact .inr ⟨rfl, hnew.1.symm, hnew.2.symm⟩
        · exact .inl (by simpa [Function.update_of_ne hconn] using hclient)
  refine { h with client := ?_, held := ?_, cleared := ?_, old := ?_ }
  · intro conn fd point hclient
    rcases hclients conn fd point hclient with hold | ⟨rfl, rfl, -⟩
    · exact h.client conn fd point hold
    · exact ⟨rfl, howner⟩
  · intro cfd' hcfd'
    exact absurd hcfd' (by simp [ListenPoint.held])
  · intro conn fd hclient
    rcases hclients conn fd .cleared hclient with hold | ⟨-, -, hpoint⟩
    · exact h.cleared conn fd hold
    · exact absurd hpoint (by simp)
  · intro cfd' fd hold
    exact absurd hold (by simp)

/-- A client task goes on; only the one that has the mutex may say it has cleared
the slot. -/
theorem TelnetServer.Inv.clientStep (h : s.Inv) {conn : ℕ} {fd : Descriptor}
    {point point' : ClientPoint} (hclient : s.clients conn = some (fd, point))
    (hpoint : point' ≠ .cleared) :
    ({ s with clients := Function.update s.clients conn (some (fd, point')) } :
      TelnetServer).Inv := by
  refine { h with client := ?_, held := ?_, cleared := ?_ }
  · intro conn' fd' q hq
    by_cases hconn : conn' = conn
    · subst hconn
      have hnew : fd = fd' ∧ point' = q := by simpa using hq
      obtain ⟨rfl, -⟩ := hnew
      exact h.client conn' fd point hclient
    · exact h.client conn' fd' q (by simpa [Function.update_of_ne hconn] using hq)
  · intro cfd hcfd
    obtain ⟨hnone, howner⟩ := h.held cfd hcfd
    have hne : cfd.conn ≠ conn := by
      rintro rfl
      simp [hclient] at hnone
    exact ⟨(Function.update_of_ne hne _ _).trans hnone, howner⟩
  · intro conn' fd' hq
    by_cases hconn : conn' = conn
    · subst hconn
      have hnew : fd = fd' ∧ point' = .cleared := by simpa using hq
      exact absurd hnew.2 hpoint
    · exact h.cleared conn' fd' (by simpa [Function.update_of_ne hconn] using hq)

/-- The slot after a client task has cleared it of its own descriptor. -/
theorem TelnetServer.Inv.clientClear (h : s.Inv) {conn : ℕ} {fd : Descriptor}
    (hclient : s.clients conn = some (fd, .leaving)) (hmutex : s.mutex = none) :
    ({ s with
        mutex := some (.cleanup conn)
        clientFd := if s.clientFd.map Descriptor.fd = some fd.fd then none else s.clientFd
        clients := Function.update s.clients conn (some (fd, .cleared)) } :
      TelnetServer).Inv := by
  have hslot : ∀ fd', (if s.clientFd.map Descriptor.fd = some fd.fd then none
      else s.clientFd) = some fd' → s.clientFd = some fd' ∧ fd'.conn ≠ conn := by
    intro fd' hfd'
    by_cases hsame : s.clientFd.map Descriptor.fd = some fd.fd
    · simp [hsame] at hfd'
    · rw [if_neg hsame] at hfd'
      refine ⟨hfd', ?_⟩
      rintro rfl
      refine hsame ?_
      have howner := h.slot fd' hfd'
      have hsame' := h.sockets.unique _ _ _ howner (h.client _ fd .leaving hclient).2
      rw [hfd', Option.map_some, hsame']
  have hnone : ∀ conn' fd', s.clients conn' ≠ some (fd', .cleared) := by
    intro conn' fd' hcleared
    exact absurd (h.cleared conn' fd' hcleared).1 (by simp [hmutex])
  refine { h with client := ?_, held := ?_, slot := ?_, cleared := ?_, logging := ?_ }
  · intro conn' fd' q hq
    by_cases hconn : conn' = conn
    · subst hconn
      have hnew : fd = fd' ∧ ClientPoint.cleared = q := by simpa using hq
      obtain ⟨rfl, -⟩ := hnew
      exact h.client conn' fd .leaving hclient
    · exact h.client conn' fd' q (by simpa [Function.update_of_ne hconn] using hq)
  · intro cfd hcfd
    obtain ⟨hidle, howner⟩ := h.held cfd hcfd
    have hne : cfd.conn ≠ conn := by
      rintro rfl
      simp [hclient] at hidle
    exact ⟨(Function.update_of_ne hne _ _).trans hidle, howner⟩
  · intro fd' hfd'
    exact h.slot fd' (hslot fd' hfd').1
  · intro conn' fd' hq
    by_cases hconn : conn' = conn
    · subst hconn
      exact ⟨rfl, fun fdNew hfdNew => (hslot fdNew hfdNew).2⟩
    · exact absurd (by simpa [Function.update_of_ne hconn] using hq) (hnone conn' fd')
  · intro fd' hfd'
    exact absurd hfd' (by simp)

/-- A client task closes its own descriptor, which no other variable keeps. -/
theorem TelnetServer.Inv.clientClose (h : s.Inv) {conn : ℕ} {fd : Descriptor}
    (hclient : s.clients conn = some (fd, .cleared)) :
    ({ s with
        sockets := s.sockets.close fd.fd
        mutex := none
        clients := Function.update s.clients conn none
        calls := s.calls ++ [.close fd (s.sockets.owner fd.fd)] } : TelnetServer).Inv := by
  obtain ⟨hconn, howner⟩ := h.client conn fd .cleared hclient
  obtain ⟨hmutex, hslot⟩ := h.cleared conn fd hclient
  have hkeep : ∀ {fd' conn'}, conn' ≠ conn → s.sockets.owner fd' = some (.telnet conn') →
      (s.sockets.close fd.fd).owner fd' = some (.telnet conn') := by
    intro fd' conn' hne howner'
    exact Handles.owner_close_of_owner_ne howner howner' (by simpa using hne)
  have hclosed : closedConns (s.calls ++ [.close fd (s.sockets.owner fd.fd)]) =
      closedConns s.calls ++ [conn] := by
    simp [closedConns, hconn]
  exact
    { sockets := h.sockets.close
      telnet_lt := fun conn' hknown =>
        h.telnet_lt conn' (by rwa [Handles.new_close] at hknown)
      other_lt := fun n hknown => h.other_lt n (by rwa [Handles.new_close] at hknown)
      client := by
        intro conn' fd' point hq
        by_cases hne : conn' = conn
        · subst hne
          exact absurd hq (by simp)
        · have hold := h.client conn' fd' point
            (by simpa [Function.update_of_ne hne] using hq)
          exact ⟨hold.1, hkeep hne hold.2⟩
      held := by
        intro cfd hcfd
        obtain ⟨hidle, hcfd'⟩ := h.held cfd hcfd
        have hne : cfd.conn ≠ conn := by
          rintro rfl
          simp [hclient] at hidle
        exact ⟨(Function.update_of_ne hne _ _).trans hidle, hkeep hne hcfd'⟩
      slot := fun fd' hfd' => hkeep (hslot fd' hfd') (h.slot fd' hfd')
      cleared := by
        intro conn' fd' hq
        by_cases hne : conn' = conn
        · subst hne
          exact absurd hq (by simp)
        · have hother := h.cleared conn' fd' (by simpa [Function.update_of_ne hne] using hq)
          have hsame : conn' = conn := by simpa [hmutex, eq_comm] using hother.1
          exact absurd hsame hne
      logging := by simp
      old := fun cfd fd' hold => (h.old cfd fd' hold).close
      onTarget := by
        intro call hmem
        rcases List.mem_append.mp hmem with hold | hnew
        · exact h.onTarget call hold
        · obtain rfl := List.mem_singleton.mp hnew
          exact howner.trans (congrArg (fun c => some (Socket.telnet c)) hconn.symm)
      closed := by
        intro conn'
        rw [hclosed, Handles.mem_ended_close, howner, List.mem_append, h.closed conn',
          List.mem_singleton]
        simp [eq_comm]
      closed_nodup := by
        rw [hclosed]
        have hfresh : conn ∉ closedConns s.calls := by
          rw [h.closed conn]
          exact h.sockets.open_not_ended fd.fd _ howner
        refine List.nodup_append.mpr ⟨h.closed_nodup, by simp, ?_⟩
        intro c hc c' hc' heq
        rw [List.mem_singleton.mp hc'] at heq
        exact hfresh (heq ▸ hc)
      shutdown := by
        intro i fd' met hi
        rcases Nat.lt_or_ge i s.calls.length with hlt | hge
        · rw [List.getElem?_append_left hlt] at hi
          rw [List.take_append_of_le_length (Nat.le_of_lt hlt)]
          exact h.shutdown i fd' met hi
        · rw [List.getElem?_append_right hge] at hi
          have hmem := List.mem_of_getElem? hi
          exact absurd (List.mem_singleton.mp hmem) (by simp) }

/-- The mutex goes to a logging task, or back from one. -/
theorem TelnetServer.Inv.logTake (h : s.Inv) (hmutex : s.mutex = none) :
    ({ s with mutex := some (.logging s.clientFd) } : TelnetServer).Inv := by
  refine { h with cleared := ?_, logging := ?_ }
  · intro conn fd hclient
    exact absurd (h.cleared conn fd hclient).1 (by simp [hmutex])
  · intro fd hfd
    exact (MutexHolder.logging.inj (Option.some.inj hfd)).symm

theorem TelnetServer.Inv.logGive (h : s.Inv) {fd : Option Descriptor}
    (hmutex : s.mutex = some (.logging fd)) :
    ({ s with mutex := none } : TelnetServer).Inv := by
  refine { h with cleared := ?_, logging := by simp }
  intro conn fd' hclient
  exact absurd (h.cleared conn fd' hclient).1 (by simp [hmutex])

theorem TelnetServer.Inv.step (h : s.Inv) (a : TelnetStep) : (telnetStep s a).Inv := by
  cases a with
  | openOther fd =>
      simp only [telnetStep]
      split
      · exact h.openOther ‹_›
      · exact h
  | closeOther fd =>
      simp only [telnetStep]
      split
      · exact h.closeOther ‹_›
      · exact h
  | accept fd =>
      simp only [telnetStep]
      split
      · exact h.accept ‹_›
      · exact h
  | swap =>
      simp only [telnetStep]
      split
      · exact h.swap ‹_› ‹_›
      · exact h
  | evict =>
      simp only [telnetStep]
      split
      · rename_i cfd hcfd
        exact h.creating (by rw [hcfd]; rfl)
      · rename_i cfd old hcfd
        have hheld : s.listener.held = some cfd := by rw [hcfd]; rfl
        have hcreating := h.creating hheld
        refine hcreating.addCall (by simp) trivial ?_
        intro fd met heq
        obtain ⟨rfl, rfl⟩ := SocketCall.shutdown.inj heq
        rw [(h.old cfd old hcfd).owner_iff h.sockets, h.closed]
      · exact h
  | create ok =>
      simp only [telnetStep]
      split
      · exact h.create ‹_› ok
      · exact h
  | clientIo conn =>
      simp only [telnetStep]
      split
      · rename_i fd hclient
        obtain ⟨hconn, howner⟩ := h.client conn fd .serving hclient
        refine h.addCall (by simp) ?_ (by simp)
        exact howner.trans (congrArg (fun c => some (Socket.telnet c)) hconn.symm)
      · exact h
  | clientLeave conn =>
      simp only [telnetStep]
      split
      · exact h.clientStep ‹_› (by simp)
      · exact h
  | clientClear conn =>
      simp only [telnetStep]
      split
      · exact h.clientClear ‹_› ‹_›
      · exact h
  | clientClose conn =>
      simp only [telnetStep]
      split
      · exact h.clientClose ‹_›
      · exact h
  | logTake =>
      simp only [telnetStep]
      split
      · exact h.logTake ‹_›
      · exact h
  | logSend =>
      simp only [telnetStep]
      split
      · exact h.logGive ‹_›
      · rename_i fd hmutex
        have hslot : s.clientFd = some fd := (h.logging _ hmutex).symm
        exact (h.logGive hmutex).addCall (by simp) (h.slot fd hslot) (by simp)
      · exact h

theorem TelnetServer.inv_run (actions : List TelnetStep) :
    (Runs.run telnetStep .start actions).Inv :=
  Runs.invariant (fun _ a h => h.step a) inv_start actions

end

/-! ## What the calls meet -/

/-- In every interleaving the log lines, the replies, the reads and the closes of the
server meet the connection they are for, however descriptors are given out
again, and no connection is closed twice. -/
theorem telnet_calls_onTarget (actions : List TelnetStep) :
    (∀ call ∈ (Runs.run telnetStep .start actions).calls, call.OnTarget) ∧
      (closedConns (Runs.run telnetStep .start actions).calls).Nodup :=
  ⟨(TelnetServer.inv_run actions).onTarget, (TelnetServer.inv_run actions).closed_nodup⟩

/-- The shutdown of an evicted client meets that client exactly when its task has not
closed the descriptor by then; otherwise it meets nothing, or a stranger. -/
theorem telnet_shutdown_iff (actions : List TelnetStep) {i : ℕ} {fd : Descriptor}
    {met : Option Socket}
    (hi : (Runs.run telnetStep .start actions).calls[i]? = some (.shutdown fd met)) :
    met = some (.telnet fd.conn) ↔
      fd.conn ∉ closedConns ((Runs.run telnetStep .start actions).calls.take i) :=
  (TelnetServer.inv_run actions).shutdown i fd met hi

/-- The evicted client hangs up before its shutdown, and the stack gives its
descriptor to another socket. -/
def evictionRace : List TelnetStep :=
  [.accept 5, .swap, .evict, .create true, .accept 6, .swap, .clientLeave 0, .clientClear 0,
    .clientClose 0, .openOther 5, .evict]

/-- The shutdown then meets the other socket. -/
theorem telnet_shutdown_iff_race :
    (Runs.run telnetStep .start evictionRace).calls[1]? =
        some (.shutdown ⟨5, 0⟩ (some (.other 0))) ∧
      (some (Socket.other 0) = some (.telnet 0) ↔
        0 ∉ closedConns ((Runs.run telnetStep .start evictionRace).calls.take 1)) :=
  have hcall : (Runs.run telnetStep .start evictionRace).calls[1]? =
      some (.shutdown ⟨5, 0⟩ (some (.other 0))) := by decide
  ⟨hcall, telnet_shutdown_iff evictionRace hcall⟩

end Nivona
