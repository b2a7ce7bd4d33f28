import GoPosix.Lib.Json
import GoPosix.Daemon.Session

/-!
# Requests

`processRequest` answers one JSON-RPC request. It is a program over whatever else the daemon has
(`Host`), of which nothing is assumed. A request without an id is a notification and gets no answer.
Every branch has to see to that by itself; `processRequest_answers` says that they all do, and that
an answer carries the id of its request.
-/

namespace GoPosix.Common

open Bytes List

structure LimitWriter where
  w : Bytes
  limit : Nat
  wrote : Nat
  deriving DecidableEq, Repr

/-- `Write`: the number of bytes taken, and whether there was an error. -/
def LimitWriter.write (lw : LimitWriter) (p : Bytes) : (Nat × Bool) × LimitWriter :=
  if lw.wrote ≥ lw.limit then ((0, true), lw)
  else if lw.wrote + p.length > lw.limit then
    let p := p.take (lw.limit - lw.wrote)
    ((p.length, true), { lw with w := lw.w ++ p, wrote := lw.wrote + p.length })
  else ((p.length, false), { lw with w := lw.w ++ p, wrote := lw.wrote + p.length })

/-- What a writer with nothing in it keeps of a sequence of writes. -/
def LimitWriter.keep (limit : Nat) (writes : List Bytes) : Bytes :=
  (writes.foldl (fun (lw : LimitWriter) p => (lw.write p).2) ⟨[], limit, 0⟩).w

theorem LimitWriter.write_eq {lw : LimitWriter} (hw : lw.wrote = lw.w.length)
    (hl : lw.wrote ≤ lw.limit) (p : Bytes) :
    (lw.write p).2 = ⟨(lw.w ++ p).take lw.limit, lw.limit, ((lw.w ++ p).take lw.limit).length⟩ := by
  obtain ⟨w, limit, wr⟩ := lw
  dsimp only at hw hl
  subst hw
  unfold LimitWriter.write
  dsimp only
  split_ifs with hf ho
  · have hlen : limit = w.length := Nat.le_antisymm hf hl
    rw [hlen, take_left]
  · rw [take_append, take_of_length_le hl, length_append]
  · rw [take_of_length_le (by rw [length_append]; omega), length_append]

theorem LimitWriter.foldl_write (wr : List Bytes) : ∀ {lw : LimitWriter},
    lw.wrote = lw.w.length → lw.wrote ≤ lw.limit →
      (wr.foldl (fun lw p => (lw.write p).2) lw).w = (lw.w ++ wr.flatten).take lw.limit := by
  induction wr with
  | nil =>
    intro lw hw hl
    rw [foldl_nil, flatten_nil, append_nil, take_of_length_le (hw ▸ hl)]
  | cons p wr ih =>
    intro lw hw hl
    rw [foldl_cons, write_eq hw hl, ih rfl (length_take_le ..), flatten_cons]
    simp only [take_append, take_take]
    grind

theorem LimitWriter.keep_eq (limit : Nat) (w : List Bytes) : keep limit w = w.flatten.take limit :=
  foldl_write w rfl (Nat.zero_le _)

end GoPosix.Common

namespace GoPosix.Daemon

open Bytes Common

/-! ## Requests and responses -/

/-- A request. A missing id and an id that is `null` are both `none`. -/
structure Request where
  jsonrpc : Bytes
  method : Bytes
  params : Option Json
  id : Option Json

structure Error where
  code : Int
  message : Bytes
  data : Option Json

structure Response where
  jsonrpc : Bytes
  result : Option Json
  error : Option Error
  id : Option Json

def Request.result (req : Request) (result : Json) : Response :=
  ⟨str "2.0", some result, none, req.id⟩

def Request.error (req : Request) (code : Int) (message : String) : Response :=
  ⟨str "2.0", none, some ⟨code, str message, none⟩, req.id⟩

def Request.wanted (req : Request) (res : Response) : Option Response :=
  if req.id.isSome then some res else none

/-! ## Parameters -/

structure GoposixParams where
  flags : List Bytes
  path : Bytes
  text : Bytes
  stdin : Bytes
  sessionId : Bytes
  rawOutput : Bool

def GoposixParams.unmarshal : Json → Option GoposixParams :=
  Json.decodeObject (fun key v p =>
    if Json.named "flags" key then do
      let flags ← Json.decodeStrings p.flags v
      pure { p with flags }
    else if Json.named "path" key then do
      let path ← Json.decodeString p.path v
      pure { p with path }
    else if Json.named "text" key then do
      let text ← Json.decodeString p.text v
      pure { p with text }
    else if Json.named "stdin" key then do
      let stdin ← Json.decodeString p.stdin v
      pure { p with stdin }
    else if Json.named "sessionId" key then do
      let sessionId ← Json.decodeString p.sessionId v
      pure { p with sessionId }
    else if Json.named "rawOutput" key then do
      let rawOutput ← Json.decodeBool p.rawOutput v
      pure { p with rawOutput }
    else some p)
    ⟨[], [], [], [], [], false⟩

/-- The parameters of the session and shell methods: a session, and one more string. -/
structure SessionParams where
  sessionId : Bytes
  value : Bytes

/-- `json.Unmarshal` into a session id and the string `field`. -/
def SessionParams.unmarshal (field : String) : Json → Option SessionParams :=
  Json.decodeObject (fun key v p =>
    if Json.named "sessionId" key then do
      let sessionId ← Json.decodeString p.sessionId v
      pure { p with sessionId }
    else if Json.named field key then do
      let value ← Json.decodeString p.value v
      pure { p with value }
    else some p)
    ⟨[], []⟩

/-! ## The rest of the daemon -/

/-- What a command did: its exit code and what it wrote, write by write. -/
structure RunResult where
  exitCode : Int
  stdout : List Bytes
  stderr : List Bytes

abbrev Command (W : Type) := (args : List Bytes) → (stdin cwd : Bytes) → StateM W RunResult

structure ExecResult where
  stdout : Bytes
  stderr : Bytes
  exitCode : Nat
  cwd : Bytes

/-- What `processRequest` reads of a `JSONEnvelope`: the data, and the code and message of the
error. -/
structure Envelope where
  data : Json
  error : Option (Bytes × Bytes)

/-- Everything `processRequest` uses, in a world of which `W` is the state. -/
structure Host (W : Type) where
  lookup : Bytes → Option (Command W)
  version : Bytes
  uptime : W → Bytes
  activeWorkers : W → Int
  timeText : Int → Bytes
  create : StateM W Session
  get : Bytes → StateM W (Option Session)
  setCwd : (id path : Bytes) → StateM W Bool
  list : StateM W (List Session)
  destroy : Bytes → StateM W Bool
  exec : (script cwd : Bytes) → Option Env → StateM W ExecResult
  securePath : (target base : Bytes) → StateM W (Except SecureError Bytes)
  unmarshalEnvelope : Bytes → Option Envelope

def Session.toJson (timeText : Int → Bytes) (s : Session) : Json :=
  .obj [(str "sessionId", .str s.id), (str "cwd", .str s.cwd), (str "baseDir", .str s.baseDir),
    (str "env", .obj (s.env.map fun e => (e.1, .str e.2))),
    (str "lastActive", .str (timeText s.lastActive))]

def ExecResult.toJson (r : ExecResult) : Json :=
  .obj [(str "stdout", .str r.stdout), (str "stderr", .str r.stderr),
    (str "exitCode", .num r.exitCode), (str "cwd", .str r.cwd)]

/-! ## `processRequest`

The methods of the daemon itself, one after another, and then the commands. -/

variable {W : Type}

section

variable (host : Host W) (req : Request)

def ping : StateM W (Option Response) := fun w =>
  if req.id = none then (none, w)
  else (some (req.result (.obj [(str "pong", .bool true), (str "uptime", .str (host.uptime w)),
    (str "version", .str host.version),
    (str "workers", .obj [(str "active", .num (host.activeWorkers w))])])), w)

def sessionCreate : StateM W (Option Response) :=
  match req.id with
  | none => pure none
  | some _ => do
    let sess ← host.create
    pure (some (req.result (sess.toJson host.timeText)))

def sessionSetCwd : StateM W (Option Response) :=
  match req.id with
  | none => pure none
  | some _ =>
    match req.params.bind (SessionParams.unmarshal "path") with
    | none => pure (some (req.error (-32602) "Invalid params"))
    | some p => do
      match ← host.get p.sessionId with
      | none => pure (some (req.error (-32602) "Invalid session"))
      | some _ =>
        if ← host.setCwd p.sessionId p.value then pure (some (req.result (.bool true)))
        else pure (some (req.error (-32602) "Path traversal detected or directory does not exist"))

def sessionList : StateM W (Option Response) :=
  match req.id with
  | none => pure none
  | some _ => do
    let sessions ← host.list
    pure (some (req.result (.arr (sessions.map (Session.toJson host.timeText)))))

def sessionDestroy : StateM W (Option Response) :=
  match req.id with
  | none => pure none
  | some _ =>
    match req.params.bind (SessionParams.unmarshal "sessionId") with
    | none => pure (some (req.error (-32602) "Invalid session"))
    | some p => do
      if ← host.destroy p.sessionId then pure (some (req.result (.bool true)))
      else pure (some (req.error (-32602) "Invalid session"))

/-- The directory and the environment a script is run in. -/
def execContext (sessionId : Bytes) : StateM W (Bytes × Option Env) :=
  if sessionId = [] then pure (str "/", none)
  else do
    match ← host.get sessionId with
    | none => pure (str "/", none)
    | some session => pure (session.cwd, some session.env)

def shellExec : StateM W (Option Response) :=
  match req.id with
  | none => pure none
  | some _ =>
    match req.params.bind (SessionParams.unmarshal "script") with
    | none => pure (some (req.error (-32602) "Invalid params"))
    | some p => do
      let (cwd, env) ← execContext host p.sessionId
      let res ← host.exec p.value cwd env
      if p.sessionId ≠ [] ∧ res.cwd ≠ [] then
        let _ ← host.setCwd p.sessionId res.cwd
      pure (some (req.result res.toJson))

def outputLimit : Nat := 50 * 1024 * 1024

def commandResponse (rawOutput : Bool) (res : RunResult) : Option Response :=
  let buf := LimitWriter.keep outputLimit res.stdout
  let errBuf := LimitWriter.keep outputLimit res.stderr
  if rawOutput then
    match req.id with
    | none => none
    | some _ => some
      (req.result (.obj [(str "exitCode", .num res.exitCode), (str "stdout", .str buf),
        (str "stderr", .str errBuf)]))
  else match host.unmarshalEnvelope buf with
    | none => req.wanted (req.result (.obj [(str "exitCode", .num res.exitCode),
        (str "data", if buf.length > 0 then .str buf else .null), (str "stderr", .str errBuf)]))
    | some env =>
      match req.id with
      | none => none
      | some _ =>
        match env.error with
        | some (code, message) => some ⟨str "2.0", none, some ⟨-32000, message,
            some (.obj [(str "exitCode", .num res.exitCode), (str "code", .str code),
              (str "stderr", .str errBuf)])⟩, req.id⟩
        | none => some
          (req.result (.obj [(str "exitCode", .num res.exitCode), (str "data", env.data),
            (str "stderr", .str errBuf)]))

def commandSession : Option GoposixParams → StateM W (Option Session)
  | none => pure none
  | some p => if p.sessionId = [] then pure none else host.get p.sessionId

def sessionCwd : Option Session → Bytes
  | none => str "/"
  | some s => if s.cwd = [] then str "/" else s.cwd

/-- The parameters, with a path that is inside the directory of the session. -/
def securedParams (session : Option Session) :
    Option GoposixParams → StateM W (Except SecureError (Option GoposixParams))
  | none => pure (.ok none)
  | some p =>
    if p.path = [] then pure (.ok (some p))
    else do
      match ← host.securePath p.path (sessionCwd session) with
      | .error e => pure (.error e)
      | .ok secure => pure (.ok (some { p with path := secure }))

def commandArgs (cmdName : Bytes) : Option GoposixParams → List Bytes
  | none => [str "--json"]
  | some p =>
    let args := p.flags ++ (if cmdName = str "echo" ∧ p.text ≠ [] then [p.text] else []) ++
      (if p.path ≠ [] then [p.path] else [])
    if p.rawOutput then args else str "--json" :: args

def runCommand (cmdName : Bytes) : StateM W (Option Response) :=
  match host.lookup cmdName with
  | none => pure (req.wanted (req.error (-32601) "Method not found"))
  | some cmd => do
    let params := req.params.bind GoposixParams.unmarshal
    let session ← commandSession host params
    match ← securedParams host session params with
    | .error _ => pure (req.wanted (req.error (-32602) "Path traversal detected"))
    | .ok params => do
      let stdin := (params.map GoposixParams.stdin).getD []
      let res ← cmd (commandArgs cmdName params) stdin (sessionCwd session)
      pure (commandResponse host req ((params.map GoposixParams.rawOutput).getD false) res)

def processRequest : StateM W (Option Response) :=
  if req.jsonrpc ≠ str "2.0" then pure (req.wanted (req.error (-32600) "Invalid Request"))
  else if req.method.length > 256 then pure (req.wanted (req.error (-32600) "Method too long"))
  else if req.method = str "goposix.ping" then ping host req
  else if req.method = str "goposix.session.create" then sessionCreate host req
  else if req.method = str "goposix.session.setCwd" then sessionSetCwd host req
  else if req.method = str "goposix.session.list" then sessionList host req
  else if req.method = str "goposix.session.destroy" then sessionDestroy host req
  else if req.method = str "goposix.shell.exec" then shellExec host req
  else if hasPrefix req.method (str "goposix.") = false then
    pure (req.wanted (req.error (-32601) "Method not found"))
  else runCommand host req (trimPrefix req.method (str "goposix."))

end

/-! ## The rule of notifications -/

/-- The response is there if the request has an id, and it carries that id. -/
def Request.Answer (req : Request) (res : Option Response) : Prop :=
  res.map Response.id = req.id.map some

/-- A program that always answers the request as it should. -/
def Answers (req : Request) (m : StateM W (Option Response)) : Prop := ∀ w, req.Answer (m w).1

section

variable {req : Request} {α : Type}

theorem answer_none (h : req.id = none) : req.Answer none := by
  rw [Request.Answer, h]
  rfl

theorem answer_some (h : req.id = some i) (hr : res.id = req.id) : req.Answer (some res) := by
  rw [Request.Answer, Option.map_some, hr, h]
  rfl

theorem answer_wanted (hr : res.id = req.id) : req.Answer (req.wanted res) := by
  unfold Request.wanted
  cases h : req.id with
  | none => exact answer_none h
  | some i => exact answer_some h hr

theorem Answers.pure (h : req.Answer o) :
    Answers req (Pure.pure o : StateM W (Option Response)) := fun _ => h

theorem Answers.bind
    (h : ∀ a, Answers req (f a)) : Answers req (m >>= f) := fun w => h (m w).1 (m w).2

end

section

variable (host : Host W) (req : Request)

theorem ping_answers : Answers req (ping host req) := by
  intro w
  unfold ping
  cases h : req.id with
  | none => exact answer_none h
  | some i => exact answer_some h rfl

/-- A method that does nothing for a notification. -/
theorem Answers.guarded {b : Json → StateM W (Option Response)}
    (h : ∀ i, req.id = some i → Answers req (b i)) :
    Answers req (match req.id with
      | none => Pure.pure none
      | some i => b i) := by
  cases hid : req.id with
  | none => exact .pure (answer_none hid)
  | some i => exact h i hid

theorem sessionCreate_answers : Answers req (sessionCreate host req) := by
  refine .guarded req fun i h => ?_
  exact .bind fun s => .pure (answer_some h rfl)

theorem sessionSetCwd_answers : Answers req (sessionSetCwd host req) := by
  refine .guarded req fun i h => ?_
  cases req.params.bind (SessionParams.unmarshal "path") with
  | none => exact .pure (answer_some h rfl)
  | some p =>
    apply Answers.bind
    intro se
    cases se with
    | none => exact .pure (answer_some h rfl)
    | some s =>
      apply Answers.bind
      intro ok
      cases ok with
      | false => exact .pure (answer_some h rfl)
      | true => exact .pure (answer_some h rfl)

theorem sessionList_answers : Answers req (sessionList host req) := by
  refine .guarded req fun i h => ?_
  exact .bind fun s => .pure (answer_some h rfl)

theorem sessionDestroy_answers : Answers req (sessionDestroy host req) := by
  refine .guarded req fun i h => ?_
  cases req.params.bind (SessionParams.unmarshal "sessionId") with
  | none => exact .pure (answer_some h rfl)
  | some p =>
    apply Answers.bind
    intro ok
    cases ok with
    | false => exact .pure (answer_some h rfl)
    | true => exact .pure (answer_some h rfl)

theorem shellExec_answers : Answers req (shellExec host req) := by
  refine .guarded req fun i h => ?_
  cases req.params.bind (SessionParams.unmarshal "script") with
  | none => exact .pure (answer_some h rfl)
  | some p =>
    apply Answers.bind
    intro c
    apply Answers.bind
    intro r
    split
    · exact .bind fun _ => .pure (answer_some h rfl)
    · exact .pure (answer_some h rfl)

theorem commandResponse_answer (ro : Bool) (r : RunResult) :
    req.Answer (commandResponse host req ro r) := by
  unfold commandResponse
  dsimp only
  split
  · split
    · next h => exact answer_none h
    · next i h => exact answer_some h rfl
  · split
    · exact answer_wanted rfl
    split
    · next h => exact answer_none h
    · next i h =>
      split
      · exact answer_some h rfl
      · exact answer_some h rfl

theorem runCommand_answers (cn : Bytes) : Answers req (runCommand host req cn) := by
  unfold runCommand
  cases host.lookup cn with
  | none => exact .pure (answer_wanted rfl)
  | some c =>
    apply Answers.bind
    intro s
    apply Answers.bind
    intro p
    cases p with
    | error e => exact .pure (answer_wanted rfl)
    | ok p => exact .bind fun r => .pure (commandResponse_answer host req _ r)

/-- **Every branch keeps the rule.** A request with an id is answered, with its id; a request
without one is not. -/
theorem processRequest_answers : Answers req (processRequest host req) := by
  unfold processRequest
  split_ifs
  · exact .pure (answer_wanted rfl)
  · exact .pure (answer_wanted rfl)
  · exact ping_answers host req
  · exact sessionCreate_answers host req
  · exact sessionSetCwd_answers host req
  · exact sessionList_answers host req
  · exact sessionDestroy_answers host req
  · exact shellExec_answers host req
  · exact .pure (answer_wanted rfl)
  · exact runCommand_answers host req _

end

/-- A daemon that has no commands, no sessions and no shell. -/
def idleHost : Host Unit where
  lookup _ := none
  version := str "dev"
  uptime _ := str "1s"
  activeWorkers _ := 1
  timeText _ := []
  create := pure ⟨[], [], [], [], 0⟩
  get _ := pure none
  setCwd _ _ := pure false
  list := pure []
  destroy _ := pure false
  exec _ _ _ := pure ⟨[], [], 0, []⟩
  securePath _ _ := pure (.error .traversal)
  unmarshalEnvelope _ := none

end GoPosix.Daemon
