import NivonaEmulator.Lib.Runs

/-!
# Firmware updates over HTTP

`ota_post` takes an update handle and a buffer and has to give both back on each of its
paths, answer once, and choose the new image only when all of it has arrived.  The calls
it makes are checked: a misuse of the handle or of the buffer has no result.  Requests
come one after another, in the one task of the server.
-/

namespace Nivona

/-! ## Calls of the platform -/

abbrev EspErr := Int32

def ESP_OK : EspErr := 0

def OTA_BUF_SZ : ℕ := 2048

/-- What `httpd_req_recv` puts into the buffer when it returns a positive number. -/
structure OtaChunk where
  data : List UInt8
  nonempty : data ≠ []
  fits : data.length ≤ OTA_BUF_SZ
  deriving DecidableEq, Repr

/-- An answer; without a text of the handler's the server sends its own. -/
inductive HttpAnswer
  | ok (text : String)
  | error500 (text : Option String)
  deriving DecidableEq, Repr

/-- The state of the server that requests can change. -/
structure OtaServer where
  /-- an open update handle, with what has been written through it -/
  handle : Option (List UInt8)
  /-- the buffer is allocated -/
  buf : Bool
  /-- the image in the update partition, once `esp_ota_end` has found it valid -/
  verified : Option (List UInt8)
  /-- the image of the next boot, unless it is the running one -/
  bootImage : Option (List UInt8)
  answers : List HttpAnswer
  restarted : Bool
  deriving DecidableEq, Repr

def OtaServer.start : OtaServer :=
  { handle := none, buf := false, verified := none, bootImage := none, answers := []
    restarted := false }

namespace OtaServer

variable (s : OtaServer)

/-- The partition is erased; the handle is valid when there was no error. -/
def espOtaBegin (err : EspErr) : Option OtaServer :=
  if s.handle.isSome then none
  else some { s with handle := if err = ESP_OK then some [] else none, verified := none }

/-- The bytes come from the buffer. -/
def espOtaWrite (data : List UInt8) (err : EspErr) : Option OtaServer :=
  match s.handle with
  | none => none
  | some written =>
      if s.buf then
        some { s with handle := some (if err = ESP_OK then written ++ data else written) }
      else none

/-- Frees the handle, whatever it finds. -/
def espOtaEnd (err : EspErr) : Option OtaServer :=
  match s.handle with
  | none => none
  | some written =>
      some { s with handle := none, verified := if err = ESP_OK then some written else none }

def espOtaAbort : Option OtaServer :=
  match s.handle with
  | none => none
  | some _ => some { s with handle := none }

/-- Only a valid image may be chosen. -/
def espOtaSetBootPartition (err : EspErr) : Option OtaServer :=
  match s.verified with
  | none => none
  | some image => some { s with bootImage := if err = ESP_OK then some image else s.bootImage }

def malloc : Option OtaServer :=
  if s.buf then none else some { s with buf := true }

def free : Option OtaServer :=
  if s.buf then some { s with buf := false } else none

def respond (answer : HttpAnswer) : OtaServer :=
  { s with answers := s.answers ++ [answer] }

end OtaServer

/-! ## The handlers -/

/-- What the platform answers during one upload. -/
structure OtaEnv where
  partition : Bool
  beginErr : EspErr
  malloc : Bool
  /-- the positive results of `httpd_req_recv`, each with the result of its write -/
  chunks : List (OtaChunk × EspErr)
  /-- the result of `httpd_req_recv` that ends the loop -/
  lastRecv : Int32
  endErr : EspErr
  setBootErr : EspErr
  espErrToName : EspErr → String

/-- The loop of `ota_post`: the bytes received, or `none` when the handler has returned. -/
def otaLoop (env : OtaEnv) (s : OtaServer) (total : ℕ) :
    List (OtaChunk × EspErr) → Option (OtaServer × Option ℕ)
  | [] => some (s, some total)
  | (chunk, err) :: rest => do
      let s ← s.espOtaWrite chunk.data err
      if err ≠ ESP_OK then do
        let s ← s.free
        let s ← s.espOtaAbort
        some (s.respond (.error500 (env.espErrToName err)), none)
      else otaLoop env s (total + chunk.data.length) rest

/-- `ota_post` after the loop. -/
def otaFinish (env : OtaEnv) (s : OtaServer) (total : ℕ) : Option OtaServer := do
  let s ← s.free
  if env.lastRecv < 0 ∨ total = 0 then do
    let s ← s.espOtaAbort
    some (s.respond (.error500 "recv error"))
  else do
    let s ← s.espOtaEnd env.endErr
    if env.endErr ≠ ESP_OK then some (s.respond (.error500 (env.espErrToName env.endErr)))
    else do
      let s ← s.espOtaSetBootPartition env.setBootErr
      if env.setBootErr ≠ ESP_OK then
        some (s.respond (.error500 (env.espErrToName env.setBootErr)))
      else
        let s := s.respond (.ok s!"OK {total} bytes, rebooting...\n")
        some { s with restarted := true }

/-- `POST /ota`. -/
def otaPost (env : OtaEnv) (s : OtaServer) : Option OtaServer :=
  if !env.partition then some (s.respond (.error500 "no update partition"))
  else do
    let s ← s.espOtaBegin env.beginErr
    if env.beginErr ≠ ESP_OK then
      some (s.respond (.error500 (env.espErrToName env.beginErr)))
    else if !env.malloc then do
      let s ← s.espOtaAbort
      some (s.respond (.error500 none))
    else do
      let s ← s.malloc
      let (s, total) ← otaLoop env s 0 env.chunks
      match total with
      | none => some s
      | some total => otaFinish env s total

/-- A request, with the text that the read-only handlers send. -/
inductive HttpRequest
  | statusGet (text : String)
  | diagGet (text : String)
  | otaPost (env : OtaEnv)
  | rebootPost

/-- The server on one request; a restart ends it. -/
def serveRequest (s : OtaServer) (request : HttpRequest) : Option OtaServer :=
  if s.restarted then some s
  else match request with
    | .statusGet text | .diagGet text => some (s.respond (.ok text))
    | .otaPost env => otaPost env s
    | .rebootPost => some { s.respond (.ok "rebooting\n") with restarted := true }

def serveAll (s : OtaServer) : List HttpRequest → Option OtaServer
  | [] => some s
  | request :: rest => do
      let s ← serveRequest s request
      serveAll s rest

/-! ## What an upload comes to -/

/-- The body, as far as it was received. -/
def OtaEnv.body (env : OtaEnv) : List UInt8 :=
  env.chunks.flatMap fun c => c.1.data

/-- Every call succeeds, and something was received. -/
structure OtaEnv.Succeeds (env : OtaEnv) : Prop where
  partition : env.partition = true
  beginOk : env.beginErr = ESP_OK
  malloc : env.malloc = true
  writes : ∀ c ∈ env.chunks, c.2 = ESP_OK
  nonempty : env.chunks ≠ []
  received : 0 ≤ env.lastRecv
  endOk : env.endErr = ESP_OK
  setBoot : env.setBootErr = ESP_OK

instance (env : OtaEnv) : Decidable env.Succeeds :=
  decidable_of_iff (env.partition = true ∧ env.beginErr = ESP_OK ∧ env.malloc = true ∧
      (∀ c ∈ env.chunks, c.2 = ESP_OK) ∧ env.chunks ≠ [] ∧ 0 ≤ env.lastRecv ∧
      env.endErr = ESP_OK ∧ env.setBootErr = ESP_OK)
    ⟨fun ⟨h₁, h₂, h₃, h₄, h₅, h₆, h₇, h₈⟩ => ⟨h₁, h₂, h₃, h₄, h₅, h₆, h₇, h₈⟩,
      fun h => ⟨h.1, h.2, h.3, h.4, h.5, h.6, h.7, h.8⟩⟩

/-- Between two requests nothing is held. -/
structure OtaServer.Idle (s : OtaServer) : Prop where
  handle : s.handle = none
  buf : s.buf = false

/-- What a request leaves behind: nothing held, one more answer, and an image to boot if it
was an upload that succeeded. -/
structure OtaServer.Served (s : OtaServer) (image : Option (List UInt8)) (s' : OtaServer) :
    Prop where
  idle : s'.Idle
  answers : s'.answers.length = s.answers.length + 1
  bootImage : s'.bootImage = image.or s.bootImage
  restarted : s'.restarted = (image.isSome || s.restarted)

theorem OtaServer.Served.congr {s₁ s₂ s' : OtaServer} {image : Option (List UInt8)}
    (h : s₁.Served image s') (hanswers : s₁.answers = s₂.answers)
    (hboot : s₁.bootImage = s₂.bootImage) (hrestarted : s₁.restarted = s₂.restarted) :
    s₂.Served image s' :=
  ⟨h.idle, hanswers ▸ h.answers, hboot ▸ h.bootImage, hrestarted ▸ h.restarted⟩

section

variable {env : OtaEnv} {s : OtaServer} {written : List UInt8}

/-- The loop ends with everything written, or gives up at a failed write and has given
back the buffer and the handle. -/
theorem otaLoop_eq (hhandle : s.handle = some written) (hbuf : s.buf = true) (total : ℕ)
    (chunks : List (OtaChunk × EspErr)) :
    ((∀ c ∈ chunks, c.2 = ESP_OK) ∧ otaLoop env s total chunks =
      some ({ s with handle := some (written ++ chunks.flatMap fun c => c.1.data) },
        some (total + (chunks.flatMap fun c => c.1.data).length))) ∨
    ((∃ c ∈ chunks, c.2 ≠ ESP_OK) ∧ ∃ s', otaLoop env s total chunks = some (s', none) ∧
      s.Served none s') := by
  induction chunks generalizing s written total with
  | nil =>
      left
      refine ⟨by simp, ?_⟩
      have hsame : { s with handle := some written } = s := by rw [← hhandle]
      simp [otaLoop, hsame]
  | cons c rest ih =>
      obtain ⟨chunk, err⟩ := c
      have hwrite : s.espOtaWrite chunk.data err = some
          { s with handle := some (if err = ESP_OK then written ++ chunk.data else written) } := by
        simp [OtaServer.espOtaWrite, hhandle, hbuf]
      rw [otaLoop, hwrite]
      simp only [Option.bind_eq_bind, Option.bind_some]
      by_cases herr : err = ESP_OK
      · simp only [herr, if_true, ne_eq, not_true_eq_false, if_false]
        rcases @ih { s with handle := some (written ++ chunk.data) } _ rfl hbuf
            (total + chunk.data.length) with ⟨hall, hrest⟩ | ⟨⟨c, hc, hne⟩, s', hrest, hserved⟩
        · left
          refine ⟨by simpa [herr] using hall, ?_⟩
          rw [hrest]
          simp [List.append_assoc, Nat.add_assoc]
        · right
          exact ⟨⟨c, List.mem_cons_of_mem _ hc, hne⟩, s', hrest, hserved.congr rfl rfl rfl⟩
      · right
        refine ⟨⟨(chunk, err), List.mem_cons_self, herr⟩,
          { s with
            handle := none, buf := false
            answers := s.answers ++ [.error500 (env.espErrToName err)] }, ?_, ?_⟩
        · simp [herr, OtaServer.free, hbuf, OtaServer.espOtaAbort, OtaServer.respond]
        · exact ⟨⟨rfl, rfl⟩, by simp, rfl, rfl⟩

/-- The condition on the calls after the loop. -/
def OtaEnv.Finishes (env : OtaEnv) (total : ℕ) : Prop :=
  0 ≤ env.lastRecv ∧ total ≠ 0 ∧ env.endErr = ESP_OK ∧ env.setBootErr = ESP_OK

instance (env : OtaEnv) (total : ℕ) : Decidable (env.Finishes total) :=
  inferInstanceAs (Decidable (_ ∧ _))

/-- After the loop the buffer is given back, and the handle is aborted or ended. -/
theorem otaFinish_eq (hhandle : s.handle = some written) (hbuf : s.buf = true) (total : ℕ) :
    ∃ s', otaFinish env s total = some s' ∧
      s.Served (if env.Finishes total then some written else none) s' := by
  rw [otaFinish, OtaServer.free, if_pos hbuf]
  simp only [Option.bind_eq_bind, Option.bind_some]
  by_cases hrecv : env.lastRecv < 0 ∨ total = 0
  · have hnot : ¬env.Finishes total := by
      rintro ⟨hlast, htotal, -⟩
      rcases hrecv with hneg | hzero
      · exact absurd hlast (by simpa using hneg)
      · exact htotal hzero
    rw [if_pos hrecv, if_neg hnot]
    simp only [OtaServer.espOtaAbort, hhandle, Option.bind_some]
    exact ⟨_, rfl, ⟨rfl, rfl⟩, by simp [OtaServer.respond], rfl, rfl⟩
  · rw [if_neg hrecv]
    simp only [OtaServer.espOtaEnd, hhandle, Option.bind_some]
    by_cases hend : env.endErr = ESP_OK
    · simp only [hend, ne_eq, not_true_eq_false, if_false, if_true,
        OtaServer.espOtaSetBootPartition, Option.bind_some]
      by_cases hboot : env.setBootErr = ESP_OK
      · have hfinishes : env.Finishes total := by
          obtain ⟨hlast, htotal⟩ := not_or.mp hrecv
          exact ⟨by simpa using hlast, htotal, hend, hboot⟩
        simp only [hboot, not_true_eq_false, if_false, if_true, if_pos hfinishes]
        exact ⟨_, rfl, ⟨rfl, rfl⟩, by simp [OtaServer.respond], rfl, rfl⟩
      · have hnot : ¬env.Finishes total := fun h => hboot h.2.2.2
        simp only [hboot, not_false_eq_true, if_true, if_false, if_neg hnot]
        exact ⟨_, rfl, ⟨rfl, rfl⟩, by simp [OtaServer.respond], rfl, rfl⟩
    · have hnot : ¬env.Finishes total := fun h => hend h.2.2.1
      simp only [hend, ne_eq, not_false_eq_true, if_true, if_neg hnot]
      exact ⟨_, rfl, ⟨rfl, rfl⟩, by simp [OtaServer.respond], rfl, rfl⟩

theorem OtaEnv.length_body_ne_zero {env : OtaEnv} (h : env.chunks ≠ []) :
    env.body.length ≠ 0 := by
  obtain ⟨c, rest, hchunks⟩ := List.exists_cons_of_ne_nil h
  have hdata : c.1.data.length ≠ 0 := by simpa using c.1.nonempty
  simp only [OtaEnv.body, hchunks, List.flatMap_cons, List.length_append]
  omega

/-- An upload keeps to the rules on each of its paths, and the image is chosen exactly when
every call succeeds. -/
theorem otaPost_eq (hidle : s.Idle) :
    ∃ s', otaPost env s = some s' ∧
      s.Served (if env.Succeeds then some env.body else none) s' := by
  have hnone : s.handle.isSome = false := by simp [hidle.handle]
  rw [otaPost]
  by_cases hpart : env.partition = true
  · rw [if_neg (by simp [hpart]), OtaServer.espOtaBegin, if_neg (by simp [hnone])]
    simp only [Option.bind_eq_bind, Option.bind_some]
    by_cases hbegin : env.beginErr = ESP_OK
    · simp only [hbegin, ne_eq, not_true_eq_false, if_false, if_true]
      by_cases hmalloc : env.malloc = true
      · simp only [hmalloc, OtaServer.malloc, hidle.buf, Bool.not_true, Bool.false_eq_true,
          if_false, Option.bind_some]
        rcases @otaLoop_eq env { s with handle := some [], verified := none, buf := true } [] rfl
          rfl 0 env.chunks with ⟨hall, hloop⟩ | ⟨⟨c, hc, hne⟩, s', hloop, hserved⟩
        · rw [hloop]
          simp only [Option.bind_some, List.nil_append, Nat.zero_add]
          obtain ⟨s', hfinish, hserved⟩ := @otaFinish_eq env
            { s with handle := some env.body, verified := none, buf := true } env.body rfl rfl
            env.body.length
          have hiff : env.Finishes env.body.length ↔ env.Succeeds := by
            constructor
            · rintro ⟨hlast, htotal, hend, hboot⟩
              have hchunks : env.chunks ≠ [] := by
                intro hnil
                exact htotal (by simp [OtaEnv.body, hnil])
              exact ⟨hpart, hbegin, hmalloc, hall, hchunks, hlast, hend, hboot⟩
            · intro h
              exact ⟨h.received, OtaEnv.length_body_ne_zero h.nonempty, h.endOk, h.setBoot⟩
          simp only [hiff] at hserved
          exact ⟨s', hfinish, hserved.congr rfl rfl rfl⟩
        · have hnot : ¬env.Succeeds := fun h => hne (h.writes c hc)
          rw [hloop, if_neg hnot]
          exact ⟨s', rfl, hserved.congr rfl rfl rfl⟩
      · have hnot : ¬env.Succeeds := fun h => hmalloc h.malloc
        simp only [hmalloc, Bool.not_false, if_true, OtaServer.espOtaAbort, Option.bind_some,
          if_neg hnot]
        exact ⟨_, rfl, ⟨rfl, hidle.buf⟩, by simp [OtaServer.respond], rfl, rfl⟩
    · have hnot : ¬env.Succeeds := fun h => hbegin h.beginOk
      simp only [hbegin, ne_eq, not_false_eq_true, if_true, if_false, if_neg hnot]
      exact ⟨_, rfl, ⟨rfl, hidle.buf⟩, by simp [OtaServer.respond], rfl, rfl⟩
  · have hnot : ¬env.Succeeds := fun h => hpart h.partition
    rw [if_pos (by simp [hpart]), if_neg hnot]
    exact ⟨_, rfl, ⟨hidle.handle, hidle.buf⟩, by simp [OtaServer.respond], rfl, rfl⟩

end

/-! ## A run of requests -/

/-- The image that a request chooses. -/
def HttpRequest.image : HttpRequest → Option (List UInt8)
  | .otaPost env => if env.Succeeds then some env.body else none
  | _ => none

def HttpRequest.restarts : HttpRequest → Bool
  | .rebootPost => true
  | request => request.image.isSome

/-- The requests that are served: those before the first that restarts, and that one. -/
def servedRequests : List HttpRequest → List HttpRequest
  | [] => []
  | request :: rest =>
      if request.restarts then [request] else request :: servedRequests rest

theorem serveRequest_eq {s : OtaServer} (hidle : s.Idle) (hrun : s.restarted = false)
    (request : HttpRequest) :
    ∃ s', serveRequest s request = some s' ∧ s'.Idle ∧
      s'.answers.length = s.answers.length + 1 ∧
      s'.bootImage = request.image.or s.bootImage ∧ s'.restarted = request.restarts := by
  have hidle' (answer : HttpAnswer) : (s.respond answer).Idle := ⟨hidle.handle, hidle.buf⟩
  cases request with
  | statusGet text =>
      refine ⟨s.respond (.ok text), ?_, hidle' _, by simp [OtaServer.respond], rfl, hrun⟩
      simp [serveRequest, hrun]
  | diagGet text =>
      refine ⟨s.respond (.ok text), ?_, hidle' _, by simp [OtaServer.respond], rfl, hrun⟩
      simp [serveRequest, hrun]
  | rebootPost =>
      refine ⟨{ s.respond (.ok "rebooting\n") with restarted := true }, ?_,
        ⟨hidle.handle, hidle.buf⟩, by simp [OtaServer.respond], rfl, rfl⟩
      simp [serveRequest, hrun]
  | otaPost env =>
      obtain ⟨s', hpost, hserved⟩ := @otaPost_eq env s hidle
      refine ⟨s', ?_, hserved.idle, hserved.answers, hserved.bootImage, ?_⟩
      · simp [serveRequest, hrun, hpost]
      · rw [hserved.restarted, hrun, Bool.or_false]
        rfl

theorem serveAll_restarted {s : OtaServer} (hend : s.restarted = true)
    (requests : List HttpRequest) : serveAll s requests = some s := by
  induction requests with
  | nil => rfl
  | cons request rest ih => simp [serveAll, serveRequest, hend, ih]

/-- A request that does not restart is not the one that decides about the image. -/
theorem getLast?_bind_cons {α β : Type*} {f : α → Option β} {a : α} (ha : f a = none)
    (l : List α) : (a :: l).getLast?.bind f = l.getLast?.bind f := by
  rcases l with _ | ⟨b, l⟩
  · simpa using ha
  · rw [List.getLast?_cons_cons]

theorem serveAll_eq {s : OtaServer} (hidle : s.Idle) (hrun : s.restarted = false)
    (requests : List HttpRequest) :
    ∃ s', serveAll s requests = some s' ∧ s'.Idle ∧
      s'.answers.length = s.answers.length + (servedRequests requests).length ∧
      s'.bootImage =
        ((servedRequests requests).getLast?.bind HttpRequest.image).or s.bootImage ∧
      s'.restarted = (servedRequests requests).any HttpRequest.restarts := by
  induction requests generalizing s with
  | nil => exact ⟨s, rfl, hidle, rfl, rfl, hrun⟩
  | cons request rest ih =>
      obtain ⟨s', hserve, hidle', hanswers, hboot, hrestarted⟩ :=
        serveRequest_eq hidle hrun request
      rw [serveAll, hserve, servedRequests]
      simp only [Option.bind_eq_bind, Option.bind_some]
      rcases hrestarts : request.restarts with _ | _
      · have himage : request.image = none := by
          cases request with
          | otaPost env => simpa [HttpRequest.restarts] using hrestarts
          | _ => rfl
        obtain ⟨sEnd, hrest, hidleEnd, hanswers', hboot', hrestarted'⟩ :=
          ih hidle' (hrestarted.trans hrestarts)
        refine ⟨sEnd, hrest, hidleEnd, ?_, ?_, ?_⟩
        · rw [hanswers', hanswers, if_neg Bool.false_ne_true, List.length_cons]
          omega
        · rw [hboot', hboot, himage, if_neg Bool.false_ne_true, getLast?_bind_cons himage]
          rfl
        · rw [hrestarted', if_neg Bool.false_ne_true, List.any_cons, hrestarts, Bool.false_or]
      · rw [serveAll_restarted (hrestarted.trans hrestarts), if_pos rfl]
        refine ⟨s', rfl, hidle', hanswers, hboot, ?_⟩
        rw [hrestarted, List.any_cons, List.any_nil, Bool.or_false]

/-- No sequence of requests, whatever the platform answers to their calls, makes the server
misuse the update handle or the buffer: each request is answered once, nothing is held
between two, and the next boot is from the running image unless the last request served
was an upload all of whose calls succeeded; then it is from exactly the bytes received. -/
theorem server_updates (requests : List HttpRequest) :
    ∃ s, serveAll .start requests = some s ∧ s.Idle ∧
      s.answers.length = (servedRequests requests).length ∧
      s.bootImage = (servedRequests requests).getLast?.bind HttpRequest.image ∧
      s.restarted = (servedRequests requests).any HttpRequest.restarts := by
  obtain ⟨s, hserve, hidle, hanswers, hboot, hrestarted⟩ :=
    @serveAll_eq .start ⟨rfl, rfl⟩ rfl requests
  refine ⟨s, hserve, hidle, ?_, ?_, hrestarted⟩
  · simpa [OtaServer.start] using hanswers
  · simpa [OtaServer.start] using hboot

end Nivona
