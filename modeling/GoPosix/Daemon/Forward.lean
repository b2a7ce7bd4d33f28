import GoPosix.Daemon.RateLimit

/-!
# Forwarding commands to the daemon

A command is either dispatched in the process that was started (`runWithWriter`) or, when there is a
daemon, sent to it as a JSON-RPC request (`forwardToDaemon`). The request carries neither the
working directory nor the bytes of an argument that are not UTF-8, and the answer is limited in size
and replaces such bytes as well.

A command is a function of its arguments, its input and its directory. The two ways give the same
exit code and output exactly if it is registered and does the same thing with what arrives at the
daemon (`forwarded_same_iff`).
-/

namespace GoPosix.Daemon

open Bytes List Json Utf8

/-! ## Commands -/

abbrev Run := (args : List Bytes) → (stdin cwd : Bytes) → RunResult

/-- The methods that the daemon keeps for itself, without their prefix. -/
def daemonMethods : List Bytes :=
  ["ping", "session.create", "session.setCwd", "session.list", "session.destroy", "shell.exec"].map
    str

/-- A name in ASCII that is neither a method of the daemon nor an option of the dispatcher, and that
is short enough for a method. -/
def PlainName (name : Bytes) : Prop :=
  isAscii name = true ∧ name.length ≤ 248 ∧ name ∉ daemonMethods ∧ name ≠ str "--upgrade"

instance (name : Bytes) : Decidable (PlainName name) := inferInstanceAs (Decidable (_ ∧ _ ∧ _ ∧ _))

structure Registry where
  lookup : Bytes → Option Run
  plain : ∀ name run, lookup name = some run → PlainName name

/-- The names that the packages of the multicall binary register, in the order of `ListAll`. -/
def commandNames : List Bytes :=
  ["[", "ar", "ash", "awk", "basename", "bc", "bunzip2", "bzcat", "cal", "cat", "chgrp",
    "chmod", "chown", "cksum", "cmp", "comm", "cp", "cpio", "cryptpw", "cut", "daemon", "date",
    "dc", "dd", "df", "diff", "dirname", "du", "echo", "egrep", "env", "expand", "expr",
    "factor", "false", "fgrep", "find", "fold", "grep", "gunzip", "gzip", "head", "hexdump",
    "hostid", "hostname", "id", "join", "kill", "link", "ln", "logger", "logname", "ls",
    "makedevs", "md5sum", "mdev", "mkdir", "mkfifo", "mkfs.minix", "mount", "mv", "nice", "nl",
    "nohup", "od", "paste", "patch", "pidof", "printenv", "printf", "ps", "pwd", "readlink",
    "realpath", "rev", "rm", "rmdir", "rx", "sed", "seq", "sh", "sha1sum", "sha256sum",
    "sha3sum", "sha512sum", "shell", "sleep", "sort", "split", "start-stop-daemon", "stat",
    "strings", "sum", "tail", "tar", "taskset", "tee", "test", "touch", "tr", "tree", "true",
    "tsort", "tty", "uname", "uncompress", "unexpand", "uniq", "unlink", "unlzma", "unzip",
    "uptime", "uudecode", "uuencode", "wc", "wget", "which", "who", "whoami", "xargs", "xxd",
    "yes"].map str

theorem commandNames_plain : ∀ name ∈ commandNames, PlainName name := by
  decide +kernel

def Registry.multicall (run : Bytes → Run) : Registry where
  lookup name := if name ∈ commandNames then some (run name) else none
  plain name r h := by
    split_ifs at h with hname
    exact commandNames_plain name hname

/-! ## Dispatch -/

structure Outcome where
  exitCode : Int
  stdout : Bytes
  stderr : Bytes

/-- The rest of what `RunWithWriter` uses. -/
structure Dispatch where
  registry : Registry
  names : List Bytes
  usage : Bytes → Bytes
  version : Bytes
  /-- `Upgrade`: the error, and what it reports on the way. -/
  upgrade : Option Bytes × Bytes

def wellKnownNames : List Bytes := ["goposix", "busybox"].map str

def isWellKnown (name : Bytes) : Bool := wellKnownNames.contains name

def Dispatch.printHelp (d : Dispatch) (binName : Bytes) : Bytes :=
  str "Usage: " ++ binName ++ str " <command> [args]\n\nCommands:\n" ++
    (d.names.map fun name => str "  " ++ name.rightpad 14 32 ++ str " " ++ d.usage name ++
      str "\n").flatten

def Dispatch.listCommands (d : Dispatch) : Bytes :=
  ((d.names.filter (· ≠ str "sh")).map (· ++ str "\n")).flatten

/-- The end of `RunWithWriter`: the command is looked up and run. -/
def Dispatch.runNamed (d : Dispatch) (binName cmdName : Bytes) (args : List Bytes) (cwd : Bytes) :
    Outcome :=
  match d.registry.lookup cmdName with
  | none => ⟨127, [], binName ++ str ": unknown command: " ++ cmdName ++ str "\n"⟩
  | some run =>
    let res := run args [] cwd
    ⟨res.exitCode, res.stdout.flatten, res.stderr.flatten⟩

/-- `RunWithWriter`, for `argv` with the head `arg0`. -/
def runWithWriter (d : Dispatch) (arg0 : Bytes) (rest : List Bytes) (cwd : Bytes) : Outcome :=
  let binName := Filepath.base arg0
  if isWellKnown binName then
    match rest with
    | [] => ⟨0, d.printHelp binName, []⟩
    | a :: args =>
      if a = str "--help" ∨ a = str "-h" then ⟨0, d.printHelp binName, []⟩
      else if a = str "--version" then ⟨0, binName ++ str " version " ++ d.version ++ str "\n", []⟩
      else if a = str "--upgrade" then
        match d.upgrade with
        | (some err, log) => ⟨1, [], log ++ binName ++ str ": upgrade: " ++ err ++ str "\n"⟩
        | (none, log) => ⟨0, [], log⟩
      else if a = str "--list-commands" then ⟨0, d.listCommands, []⟩
      else d.runNamed binName (trimSpace a) args cwd
  else d.runNamed binName binName rest cwd

/-! ## Messages -/

def Request.unmarshal : Json → Option Request :=
  decodeObject (fun key v (r : Request) =>
    if named "jsonrpc" key then do
      let jsonrpc ← decodeString r.jsonrpc v
      pure { r with jsonrpc }
    else if named "method" key then do
      let method ← decodeString r.method v
      pure { r with method }
    else if named "params" key then some { r with params := some v }
    else if named "id" key then
      match v with
      | .null => some { r with id := none }
      | v => some { r with id := some v }
    else some r)
    ⟨[], [], none, none⟩

def Error.toJson (e : Error) : Json :=
  .obj ([(str "code", .num e.code), (str "message", .str e.message)] ++
    (e.data.map fun v => (str "data", v)).toList)

def Response.toJson (r : Response) : Json :=
  .obj ([(str "jsonrpc", .str r.jsonrpc)] ++ (r.result.map fun v => (str "result", v)).toList ++
    (r.error.map fun e => (str "error", e.toJson)).toList ++
      (r.id.map fun v => (str "id", v)).toList)

structure ForwardResult where
  exitCode : Int
  stdout : Bytes

open ForwardResult

/-- The structure that the forwarder reads a response into. -/
structure ForwardResponse where
  jsonrpc : Bytes
  id : Int
  result : ForwardResult
  error : Option (Int × Bytes)

def ForwardResult.set (key : Bytes) (v : Json) (r : ForwardResult) : Option ForwardResult :=
  if named "exitCode" key then do
    let exitCode ← decodeInt r.exitCode v
    pure { r with exitCode }
  else if named "stdout" key then do
    let stdout ← decodeString r.stdout v
    pure { r with stdout }
  else some r

/-- The members of `error`. -/
def ForwardResponse.setError (key : Bytes) (v : Json) (e : Int × Bytes) : Option (Int × Bytes) :=
  if named "code" key then do
    let code ← decodeInt e.1 v
    pure (code, e.2)
  else if named "message" key then do
    let message ← decodeString e.2 v
    pure (e.1, message)
  else some e

def ForwardResponse.set (key : Bytes) (v : Json) (r : ForwardResponse) : Option ForwardResponse :=
  if named "jsonrpc" key then do
    let jsonrpc ← decodeString r.jsonrpc v
    pure { r with jsonrpc }
  else if named "id" key then do
    let id ← decodeInt r.id v
    pure { r with id }
  else if named "result" key then do
    let result ← decodeObject ForwardResult.set r.result v
    pure { r with result }
  else if named "error" key then
    match v with
    | .null => some { r with error := none }
    | v => do
      let e ← decodeObject ForwardResponse.setError (r.error.getD (0, [])) v
      pure { r with error := some e }
  else some r

def ForwardResponse.unmarshal : Json → Option ForwardResponse :=
  decodeObject ForwardResponse.set ⟨[], 0, ⟨0, []⟩, none⟩

/-! ## The daemon -/

/-- The daemon at the other end of a connection: its rate limit with the two readings of the clock,
and whether a message is short enough and an answer comes in time. -/
structure Server (W : Type) where
  host : Host W
  rateLimit : ℚ
  opened : ℚ
  now : ℚ
  clock : opened ≤ now
  requestFits : Json → Bool
  inTime : Json → Bool

def Registry.host {W : Type} (reg : Registry) (host : Host W) : Host W :=
  { host with lookup := fun name =>
    (reg.lookup name).map fun run args stdin cwd => pure (run args stdin cwd) }

/-- `writeError` without an id. -/
def errorResponse (code : Int) (message : Bytes) : Json :=
  Response.toJson ⟨str "2.0", none, some ⟨code, message, none⟩, none⟩

/-- What the first message of a connection is answered with, as it arrives. -/
def Server.answer {W : Type} (d : Server W) (sent : Json) : StateM W (Option Json) :=
  if d.inTime sent = false then pure none
  else if d.requestFits sent = false then
    pure (some (errorResponse (-32700) (str "Parse error or request too large")).wire)
  else
    match (handleMessage (newRateLimiter d.rateLimit (toInt d.rateLimit) d.opened) d.now
      (.single (Request.unmarshal sent.wire))).1 with
    | .error code message => pure (some (errorResponse code message).wire)
    | .batch _ => pure none
    | .single req => do
      let res ← processRequest d.host req
      pure (res.map fun r => r.toJson.wire)

/-! ## The forwarder -/

/-- The name and the arguments of the command, if it can be forwarded. -/
def forwardTarget (arg0 : Bytes) (rest : List Bytes) : Option (Bytes × List Bytes) :=
  let binName := Filepath.base arg0
  if isWellKnown binName then
    match rest with
    | [] => none
    | a :: args =>
      if a = str "--help" ∨ a = str "-h" ∨ a = str "--version" ∨ a = str "--list-commands" then none
      else some (trimSpace a, args)
  else some (binName, rest)

def forwardRequest (cmdName : Bytes) (args : List Bytes) : Json :=
  .obj [(str "id", .num 1), (str "jsonrpc", .str (str "2.0")),
    (str "method", .str (str "goposix." ++ cmdName)),
    (str "params", .obj [(str "flags", .arr (args.map .str)), (str "rawOutput", .bool true)])]

/-- What the forwarder does with an answer. `decodeError` is the text of the error when there is
none, or one that cannot be read. -/
def forwardOutcome (decodeError binName : Bytes) (answer : Option Json) : Outcome :=
  match answer.bind ForwardResponse.unmarshal with
  | none => ⟨126, [], binName ++ str ": forward parse error: " ++ decodeError ++ str "\n"⟩
  | some resp =>
    match resp.error with
    | some (_, message) => ⟨126, [], binName ++ str ": " ++ message ++ str "\n"⟩
    | none => ⟨resp.result.exitCode, resp.result.stdout, []⟩

/-- `forwardToDaemon`, with a daemon that can be reached; `none` is the result `-1`. -/
def forwardToDaemon {W : Type} (d : Server W) (decodeError arg0 : Bytes) (rest : List Bytes) :
    StateM W (Option Outcome) :=
  match forwardTarget arg0 rest with
  | none => pure none
  | some (cmdName, args) => do
    let answer ← d.answer (forwardRequest cmdName args)
    pure (some (forwardOutcome decodeError (Filepath.base arg0) answer))

def tryForward {W : Type} (socketExists isStdinPiped : Bool) (d : Server W)
    (decodeError arg0 : Bytes)
    (rest : List Bytes) : StateM W (Option Outcome) :=
  if socketExists = false then pure none
  else if isStdinPiped then pure none
  else forwardToDaemon d decodeError arg0 rest

/-! ## What arrives -/

def arrived (cmdName : Bytes) (args : List Bytes) : Request :=
  ⟨str "2.0", str "goposix." ++ repair cmdName,
    some (.obj [(str "flags", .arr ((args.map repair).map .str)), (str "rawOutput", .bool true)]),
    some (.num 1)⟩

theorem unmarshal_forwardRequest (cn : Bytes) (args : List Bytes) :
    Request.unmarshal (forwardRequest cn args).wire = some (arrived cn args) := by
  have hf := wireElems_map_str args
  unfold arrived
  rw [← hf]
  rfl

theorem unmarshal_params (args : List Bytes) :
    GoposixParams.unmarshal
      (.obj [(str "flags", .arr (args.map .str)), (str "rawOutput", .bool true)])
      = some ⟨args, [], [], [], [], true⟩ := by
  have hf := decodeElems_map_str args []
  show ((decodeElems [] (args.map .str)).bind _).bind _ = _
  rw [hf]
  rfl

/-- The first message of a connection gets a token if there is ever one. -/
theorem first_allowed (h : opened ≤ now) :
    ((newRateLimiter r (toInt r) opened).allow now).1 = true ↔ 1 ≤ r := by
  have hall : ((newRateLimiter r (toInt r) opened).allow now).1 = true ↔
      1 ≤ ((newRateLimiter r (toInt r) opened).refill now).tokens := by
    rw [RateLimiter.allow_eq]
    split_ifs with ho
    · simp [ho]
    · simp [ho]
  have ht : ((newRateLimiter r (toInt r) opened).refill now).tokens
      = min (toInt r + (now - opened) * r) (toInt r) := rfl
  rw [hall, ht, le_min_iff]
  constructor
  · rintro ⟨-, ho⟩
    have hi : 1 ≤ toInt r := by exact_mod_cast ho
    unfold toInt at hi
    split_ifs at hi with hn
    · have : ⌈r⌉ ≤ 0 := Int.ceil_le.mpr (by exact_mod_cast hn.le)
      omega
    · exact_mod_cast Int.le_floor.mp hi
  · intro hr
    have hi : (1 : ℚ) ≤ toInt r := by
      rw [toInt_eq (zero_le_one.trans hr)]
      exact_mod_cast Int.le_floor.mpr (by exact_mod_cast hr)
    have hg : 0 ≤ (now - opened) * r := mul_nonneg (sub_nonneg.mpr h) (zero_le_one.trans hr)
    exact ⟨by linarith, hi⟩

/-! ## What is answered -/

section

variable {W : Type}

/-- What is done about a method `goposix.name`. -/
theorem processRequest_prefixed (hjsonrpc : req.jsonrpc = str "2.0")
    (hmethod : req.method = str "goposix." ++ name) : processRequest host req =
      if name.length > 248 then pure (req.wanted (req.error (-32600) "Method too long"))
      else if name = str "ping" then ping host req
      else if name = str "session.create" then sessionCreate host req
      else if name = str "session.setCwd" then sessionSetCwd host req
      else if name = str "session.list" then sessionList host req
      else if name = str "session.destroy" then sessionDestroy host req
      else if name = str "shell.exec" then shellExec host req else runCommand host req name := by
  have hlength : (str "goposix." ++ name).length > 256 ↔ name.length > 248 := by
    rw [length_append, show (str "goposix.").length = 8 from rfl]
    omega
  have hname {m me : Bytes} (h : me = str "goposix." ++ m) :
      str "goposix." ++ name = me ↔ name = m := by
    rw [h, append_right_inj]
  unfold processRequest
  rw [hjsonrpc, hmethod, if_neg (by simp)]
  simp only [hlength, @hname (str "ping") (str "goposix.ping") rfl,
    @hname (str "session.create") (str "goposix.session.create") rfl,
    @hname (str "session.setCwd") (str "goposix.session.setCwd") rfl,
    @hname (str "session.list") (str "goposix.session.list") rfl,
    @hname (str "session.destroy") (str "goposix.session.destroy") rfl,
    @hname (str "shell.exec") (str "goposix.shell.exec") rfl]
  rfl

/-- A registered command runs with the arguments as they arrive, in the root directory. -/
theorem processRequest_registered {reg : Registry} {run : Run} (args : List Bytes)
    (hr : reg.lookup name = some run) (w : W) :
    (processRequest (reg.host host) (arrived name args) w).1 =
      commandResponse (reg.host host) (arrived name args) true
          (run (args.map repair) [] (str "/")) := by
  obtain ⟨hascii, hlen, hm, -⟩ := reg.plain name run hr
  have hn : repair name = name := valid_of_ascii hascii
  have hmethod : (arrived name args).method = str "goposix." ++ name := by
    rw [arrived, hn]
  simp only [daemonMethods, map_cons, mem_cons, not_or] at hm
  rw [processRequest_prefixed rfl hmethod, if_neg (by omega)]
  simp only [hm]
  have hl : (reg.host host).lookup name = some fun args s cwd => pure (run args s cwd) := by
    simp [Registry.host, hr]
  have hp : (arrived name args).params.bind GoposixParams.unmarshal
      = some ⟨args.map repair, [], [], [], [], true⟩ := unmarshal_params _
  unfold runCommand
  rw [hl, hp]
  have hargs : commandArgs name (some ⟨args.map repair, [], [], [], [], true⟩) =
      args.map repair := by
    simp [commandArgs]
  show commandResponse (reg.host host) (arrived name args) true
    (run (commandArgs name (some ⟨args.map repair, [], [], [], [], true⟩)) [] (str "/")) = _
  rw [hargs]

variable {decodeError binName : Bytes}

theorem forwardOutcome_result (v : Json) : forwardOutcome decodeError binName
      (some (Response.toJson ⟨str "2.0", some v, none, some (.num 1)⟩).wire) =
    match decodeObject set ⟨0, []⟩ v.wire with
    | none => ⟨126, [], binName ++ str ": forward parse error: " ++ decodeError ++ str "\n"⟩
    | some r => ⟨r.exitCode, r.stdout, []⟩ := by
  have hr : ForwardResponse.unmarshal
    (Response.toJson ⟨str "2.0", some v, none, some (.num 1)⟩).wire
      = (decodeObject set ⟨0, []⟩ v.wire).map
        fun result => ⟨str "2.0", 1, result, none⟩ := by
    show ((decodeObject ForwardResult.set ⟨0, []⟩ v.wire).bind _).bind _ = _
    cases decodeObject set ⟨0, []⟩ v.wire with
    | none => rfl
    | some r => rfl
  unfold forwardOutcome
  rw [Option.bind_some, hr]
  cases decodeObject set ⟨0, []⟩ v.wire with
  | none => rfl
  | some r => rfl

/-! ## Methods that are no commands -/

variable {name : Bytes} {args : List Bytes} {reg : Registry} {α : Type}

/-- Whatever the program answers, the exit code satisfies `P`. -/
def Ends (decodeError binName : Bytes) (P : Int → Prop) (m : StateM W (Option Response)) : Prop :=
  ∀ w, P (forwardOutcome decodeError binName ((m w).1.map fun r => r.toJson.wire)).exitCode

theorem Ends.bind (h : ∀ a, Ends decodeError binName P (f a)) :
    Ends decodeError binName P (m >>= f) := fun w =>
      h (m w).1 (m w).2

theorem ends_error (h : P 126) (code : Int) (message : String) : Ends decodeError binName P
      (pure (some ((arrived name args).error code message)) : StateM W (Option Response)) := by
  intro _
  exact h

/-- The exit code that the forwarder takes from a result. -/
def resultCode (v : Json) : Int :=
  match decodeObject set ⟨0, []⟩ v.wire with
  | none => 126
  | some res => res.exitCode

theorem ends_result (h : P (resultCode v)) : Ends decodeError binName P
      (pure (some ((arrived name args).result v)) : StateM W (Option Response)) := by
  intro w
  show P (forwardOutcome decodeError binName
    (some (Response.toJson ⟨str "2.0", some v, none, some (.num 1)⟩).wire)).exitCode
  rw [forwardOutcome_result]
  unfold resultCode at h
  generalize decodeObject set ⟨0, []⟩ v.wire = decoded at h
  cases decoded with
  | none => exact h
  | some r => exact h

/-- Neither a method of the daemon other than `shell.exec` nor an unknown one is answered with an
exit code of its own. -/
theorem processRequest_ends (hl : reg.lookup name = none) (hs : repair name ≠ str "shell.exec") :
    Ends decodeError binName (fun code => code = 126 ∨ code = 0 ∧ repair name ∈ daemonMethods)
      (processRequest (reg.host host) (arrived name args)) := by
  rw [processRequest_prefixed rfl rfl]
  split_ifs with hlo hp hc hsession hlimit hd
  · exact ends_error (.inl rfl) _ _
  · intro w
    exact .inr ⟨rfl, by rw [hp]; decide⟩
  · exact Ends.bind fun s => ends_result (.inr ⟨rfl, by rw [hc]; decide⟩)
  · refine Ends.bind fun s => ?_
    cases s with
    | none => exact ends_error (.inl rfl) _ _
    | some s =>
      refine Ends.bind fun ok => ?_
      cases ok with
      | false => exact ends_error (.inl rfl) _ _
      | true => exact ends_result (.inl rfl)
  · exact Ends.bind fun se => ends_result (.inl rfl)
  · refine Ends.bind fun ok => ?_
    cases ok with
    | false => exact ends_error (.inl rfl) _ _
    | true => exact ends_result (.inl rfl)
  · have hh : (reg.host host).lookup (repair name) = none := by
      cases hr : reg.lookup (repair name) with
      | none => simp [Registry.host, hr]
      | some run =>
        rw [repair_eq_of_ascii (reg.plain _ run hr).1, hl] at hr
        cases hr
    unfold runCommand
    rw [hh]
    exact ends_error (.inl rfl) _ _

theorem shell_outcome (hn : repair name = str "shell.exec") (w : W) :
    forwardOutcome decodeError binName
      ((processRequest host (arrived name args) w).1.map fun r => r.toJson.wire) =
    ⟨(host.exec [] (str "/") none w).1.exitCode, repair (host.exec [] (str "/") none w).1.stdout,
      []⟩ := by
  have hr : (processRequest host (arrived name args) w).1
      = some ((arrived name args).result (host.exec [] (str "/") none w).1.toJson) := by
    rw [processRequest_prefixed rfl rfl, hn, if_neg (by decide)]
    rfl
  rw [hr]
  exact forwardOutcome_result _

/-! ## Both ways compared -/

theorem registered_outcome {run : Run} (hrun : reg.lookup name = some run) (w : W) :
    forwardOutcome decodeError binName
      ((processRequest (reg.host host) (arrived name args) w).1.map fun r => r.toJson.wire) =
    ⟨(run (args.map repair) [] (str "/")).exitCode,
      repair ((run (args.map repair) [] (str "/")).stdout.flatten.take outputLimit), []⟩ := by
  rw [processRequest_registered args hrun]
  generalize run (args.map repair) [] (str "/") = res
  have hr : commandResponse (reg.host host) (arrived name args) true res
      = some ⟨str "2.0", some (.obj [(str "exitCode", .num res.exitCode),
        (str "stdout", .str (res.stdout.flatten.take outputLimit)),
        (str "stderr", .str (res.stderr.flatten.take outputLimit))]), none, some (.num 1)⟩ := by
    rw [← Common.LimitWriter.keep_eq, ← Common.LimitWriter.keep_eq]
    rfl
  rw [hr, Option.map_some]
  rfl

/-- Both ways find the same command, but for the option that only the dispatcher has. -/
theorem runWithWriter_of_target {d : Dispatch} {arg0 cwd : Bytes} {rest : List Bytes}
    (h : forwardTarget arg0 rest = some (name, args)) :
    runWithWriter d arg0 rest cwd = d.runNamed (Filepath.base arg0) name args cwd ∨
      name = str "--upgrade" ∧ ((runWithWriter d arg0 rest cwd).exitCode = 0 ∨
        (runWithWriter d arg0 rest cwd).exitCode = 1) := by
  unfold forwardTarget at h
  unfold runWithWriter
  dsimp only at h ⊢
  split_ifs at h ⊢ with hw
  · cases rest with
    | nil => exact absurd h (by simp)
    | cons a rest =>
      dsimp only at h ⊢
      split_ifs at h with hm
      simp only [not_or] at hm
      obtain ⟨rfl, rfl⟩ := Prod.mk.inj (Option.some.inj h)
      rw [if_neg (by simp [hm]), if_neg hm.2.2.1]
      split_ifs with hu
      · right
        refine ⟨by rw [hu]; decide, ?_⟩
        obtain ⟨err, log⟩ := d.upgrade
        cases err with
        | none => exact .inl rfl
        | some err => exact .inr rfl
      · exact absurd ‹_› hm.2.2.2
      · exact .inl rfl
  · obtain ⟨rfl, rfl⟩ := Prod.mk.inj (Option.some.inj h)
    exact .inl rfl

/-- The daemon reads the message and answers it. -/
def Server.Takes (srv : Server W) (sent : Json) : Prop :=
  srv.inTime sent = true ∧ srv.requestFits sent = true ∧ 1 ≤ srv.rateLimit

instance (srv : Server W) (sent : Json) : Decidable (srv.Takes sent) :=
  inferInstanceAs (Decidable (_ ∧ _ ∧ _))

/-- If the daemon does not take the request, the forwarder exits with 126. -/
theorem answer_of_not_takes (srv : Server W) (h : ¬ srv.Takes (forwardRequest name args)) (w : W) :
    (forwardOutcome decodeError binName (srv.answer (forwardRequest name args) w).1).exitCode =
      126 ∧
    (forwardOutcome decodeError binName (srv.answer (forwardRequest name args) w).1).stdout =
      [] := by
  have he (code : Int) (message : Bytes) :
      (forwardOutcome decodeError binName (some (errorResponse code message).wire)).exitCode = 126 ∧
      (forwardOutcome decodeError binName (some (errorResponse code message).wire)).stdout =
          [] := by
    exact ⟨rfl, rfl⟩
  unfold Server.answer
  split_ifs with ht hf
  · exact ⟨rfl, rfl⟩
  · exact he _ _
  have hrate : ¬ 1 ≤ srv.rateLimit := by
    intro hr
    exact h ⟨by simpa using ht, by simpa using hf, hr⟩
  have hall : ((newRateLimiter srv.rateLimit (toInt srv.rateLimit) srv.opened).allow srv.now).1 =
      false := by
    rw [← Bool.not_eq_true, first_allowed srv.clock]
    exact hrate
  rw [handleMessage_eq, hall]
  exact he _ _

theorem answer_of_takes (srv : Server W) (h : srv.Takes (forwardRequest name args)) (w : W) :
    (srv.answer (forwardRequest name args) w).1 =
      (processRequest srv.host (arrived name args) w).1.map fun r => r.toJson.wire := by
  obtain ⟨ht, hf, hr⟩ := h
  unfold Server.answer
  rw [if_neg (by simp [ht]), if_neg (by simp [hf]), handleMessage_eq,
    (first_allowed srv.clock).mpr hr, unmarshal_forwardRequest]
  rfl

/-- **When the daemon gives the same result.** If it takes the request, the command is registered,
and with the arguments as they arrive, in the root directory, it exits with the same code and its
output arrives as what it writes here; or the method is `shell.exec`, and the shell fails on the
empty script in the way the dispatcher does. If the daemon does not take the request, the command
ends as the forwarder does then. -/
def Agrees (srv : Server W) (reg : Registry) (cwd : Bytes) (w : W) (name : Bytes)
    (args : List Bytes) :
    Prop :=
  if srv.Takes (forwardRequest name args) then
    (∃ run, reg.lookup name = some run ∧
      (run (args.map repair) [] (str "/")).exitCode = (run args [] cwd).exitCode ∧
      repair ((run (args.map repair) [] (str "/")).stdout.flatten.take outputLimit)
        = (run args [] cwd).stdout.flatten) ∨
    name = str "shell.exec" ∧ (srv.host.exec [] (str "/") none w).1.exitCode = 127 ∧
      repair (srv.host.exec [] (str "/") none w).1.stdout = []
  else ∃ run, reg.lookup name = some run ∧
    (run args [] cwd).exitCode = 126 ∧ (run args [] cwd).stdout.flatten = []

def Server.serving (srv : Server W) (reg : Registry) : Server W :=
  { srv with host := reg.host srv.host }

def Outcome.Same (o o' : Outcome) : Prop := o.exitCode = o'.exitCode ∧ o.stdout = o'.stdout

section

variable {d : Dispatch} {srv : Server W} {arg0 cwd : Bytes} {rest : List Bytes} {fwd : Outcome}
    {w : W}
  (htarget : forwardTarget arg0 rest = some (name, args))
    (hfwd : fwd = forwardOutcome decodeError binName
    ((srv.serving d.registry).answer (forwardRequest name args) w).1)

include htarget hfwd

/-- The command is registered here. -/
theorem same_iff_of_registered {run : Run} (hl : d.registry.lookup name = some run) :
    fwd.Same (runWithWriter d arg0 rest cwd) ↔ Agrees srv d.registry cwd w name args := by
  have hp := d.registry.plain name run hl
  have hd : runWithWriter d arg0 rest cwd = ⟨(run args [] cwd).exitCode,
      (run args [] cwd).stdout.flatten, (run args [] cwd).stderr.flatten⟩ := by
    rcases @runWithWriter_of_target name args d arg0 cwd rest htarget with h | ⟨h, -⟩
    · rw [h, Dispatch.runNamed, hl]
    · exact absurd h hp.2.2.2
  have hs : name ≠ str "shell.exec" := by
    rintro rfl
    exact hp.2.2.1 (by decide)
  rw [hd]
  unfold Agrees Outcome.Same
  split_ifs with ht
  · rw [hfwd, answer_of_takes (srv.serving d.registry) ht]
    show (forwardOutcome _ _ ((processRequest (d.registry.host srv.host) _ w).1.map _)).exitCode =
      _ ∧
      (forwardOutcome _ _ ((processRequest (d.registry.host srv.host) _ w).1.map _)).stdout = _ ↔ _
    rw [registered_outcome hl]
    simp [hl, hs]
  · have hf := @answer_of_not_takes _ decodeError binName _ _ (srv.serving d.registry) ht w
    rw [hfwd, hf.1, hf.2, eq_comm]
    simp [hl]

/-- The command is not registered here. -/
theorem same_iff_of_unknown (hl : d.registry.lookup name = none) :
    fwd.Same (runWithWriter d arg0 rest cwd) ↔ Agrees srv d.registry cwd w name args := by
  have hd := @runWithWriter_of_target name args d arg0 cwd rest htarget
  rw [Dispatch.runNamed, hl] at hd
  have hc : (runWithWriter d arg0 rest cwd).exitCode = 127 ∨ name = str "--upgrade" ∧
      ((runWithWriter d arg0 rest cwd).exitCode = 0 ∨ (runWithWriter d arg0 rest cwd).exitCode =
          1) :=
    hd.imp_left fun h => by rw [h]
  -- A forwarder that fails never agrees with the dispatcher.
  have hf (h1 : fwd.exitCode = 126) : ¬ fwd.Same (runWithWriter d arg0 rest cwd) := by
    rintro ⟨hcode, -⟩
    omega
  have hu (hm : repair name ∈ daemonMethods) : name ≠ str "--upgrade" := by
    rintro rfl
    exact absurd hm (by decide)
  unfold Agrees
  simp only [hl, reduceCtorEq, false_and, exists_false, false_or]
  split_ifs with ht
  · rw [answer_of_takes (srv.serving d.registry) ht] at hfwd
    have hexec : name = str "shell.exec" ↔ repair name = str "shell.exec" := by
      constructor
      · rintro rfl
        decide
      · intro h
        rw [← h]
        exact (repair_eq_of_ascii (h ▸ by decide)).symm
    rw [hexec]
    by_cases hs : repair name = str "shell.exec"
    · rcases hd with h | ⟨h, -⟩
      · rw [hfwd, shell_outcome hs, h, and_iff_right hs]
        exact and_congr Int.ofNat_inj Iff.rfl
      · exact absurd h (hu (hs ▸ by decide))
    · rw [iff_false_right fun h => hs h.1]
      rcases hfwd ▸ processRequest_ends hl hs w with he | ⟨he, hm⟩
      · exact hf he
      · rintro ⟨hcode, -⟩
        rcases hc with h | ⟨h, -⟩
        · omega
        · exact hu hm h
  · rw [iff_false]
    exact hf (hfwd ▸ (answer_of_not_takes (srv.serving d.registry) ht w).1)

end

theorem tryForward_eq_some
    (h : (tryForward se sp srv decodeError arg0 rest w).1 = some fwd) :
    ∃ name args, forwardTarget arg0 rest = some (name, args) ∧
      fwd = forwardOutcome decodeError (Filepath.base arg0)
          (srv.answer (forwardRequest name args) w).1 := by
  have hn : ¬ (none : Option Outcome) = some fwd := by simp
  unfold tryForward at h
  split_ifs at h with hs hp
  · exact absurd h hn
  · exact absurd h hn
  unfold forwardToDaemon at h
  cases htarget : forwardTarget arg0 rest with
  | none =>
    rw [htarget] at h
    exact absurd h hn
  | some target =>
    rw [htarget] at h
    exact ⟨target.1, target.2, rfl, (Option.some.inj h).symm⟩

/-- **When forwarding makes no difference**, for every command line that is sent to the daemon and
every directory. -/
theorem forwarded_same_iff (d : Dispatch) (srv : Server W) {socketExists isStdinPiped : Bool}
    {arg0 : Bytes} {rest : List Bytes} {w : W} {fwd : Outcome}
    (h : (tryForward socketExists isStdinPiped (srv.serving d.registry) decodeError arg0 rest w).1
      = some fwd) (cwd : Bytes) :
    (fwd.exitCode = (runWithWriter d arg0 rest cwd).exitCode ∧
      fwd.stdout = (runWithWriter d arg0 rest cwd).stdout) ↔
    ∃ name args, forwardTarget arg0 rest = some (name, args) ∧
      Agrees srv d.registry cwd w name args := by
  obtain ⟨name, args, htarget, hfwd⟩ := tryForward_eq_some h
  have hs : fwd.Same (runWithWriter d arg0 rest cwd) ↔ Agrees srv d.registry cwd w name args := by
    cases hl : d.registry.lookup name with
    | none => exact same_iff_of_unknown htarget hfwd hl
    | some run => exact same_iff_of_registered htarget hfwd hl
  refine hs.trans ?_
  rw [htarget]
  constructor
  · exact fun hagree => ⟨name, args, rfl, hagree⟩
  · rintro ⟨name', args', hp, hagree⟩
    obtain ⟨rfl, rfl⟩ := Prod.mk.inj (Option.some.inj hp)
    exact hagree

end

/-! A daemon at the end of a connection that works, and two programs. -/

def idleServer : Server Unit := ⟨idleHost, 100, 0, 0, le_refl 0, fun _ => true, fun _ => true⟩

/-- A binary in which every command does what `run` says. -/
def uniform (run : Run) : Dispatch :=
  ⟨Registry.multicall fun _ => run, commandNames, fun _ => [], str "0.1.0", (none, [])⟩

def printDir : Run := fun _ _ cwd => ⟨0, [cwd ++ str "\n"], []⟩

def printArgs : Run := fun args _ _ => ⟨0, args, []⟩

theorem idleServer_takes (reg : Registry) (s : Json) : (idleServer.serving reg).Takes s := by
  refine ⟨rfl, rfl, ?_⟩
  show (1 : ℚ) ≤ 100
  norm_num

theorem uniform_lookup (run : Run) : (uniform run).registry.lookup (str "ls") = some run := by
  have hn : str "ls" ∈ commandNames := by decide +kernel
  show (if str "ls" ∈ commandNames then some run else none) = some run
  rw [if_pos hn]

/-- In the directory `/tmp` the command prints `/tmp`, and through the daemon `/`. -/
theorem forwarded_elsewhere :
    (tryForward true false (idleServer.serving (uniform printDir).registry) [] (str "/bin/ls")
      [] ()).1
      = some ⟨0, str "/\n", []⟩ ∧
    runWithWriter (uniform printDir) (str "/bin/ls") [] (str "/tmp") = ⟨0, str "/tmp\n", []⟩ := by
  constructor
  · show some (forwardOutcome [] (str "ls")
      ((idleServer.serving (uniform printDir).registry).answer (forwardRequest (str "ls") []) ()).1)
        = _
    rw [answer_of_takes _ (idleServer_takes _ _)]
    rfl
  · rfl

theorem forwarded_same_args : ∃ fwd,
    (tryForward true false (idleServer.serving (uniform printArgs).registry) [] (str "goposix")
      [str "ls", str "a"] ()).1 = some fwd ∧
    fwd.exitCode = (runWithWriter (uniform printArgs) (str "goposix") [str "ls", str "a"]
      (str "/tmp")).exitCode ∧
    fwd.stdout = (runWithWriter (uniform printArgs) (str "goposix") [str "ls", str "a"]
      (str "/tmp")).stdout := by
  have hs : (tryForward true false (idleServer.serving (uniform printArgs).registry) []
      (str "goposix") [str "ls", str "a"] ()).1 = some (forwardOutcome [] (str "goposix")
        ((idleServer.serving (uniform printArgs).registry).answer
          (forwardRequest (str "ls") [str "a"]) ()).1) := rfl
  refine ⟨_, hs, (forwarded_same_iff (uniform printArgs) idleServer hs (str "/tmp")).mpr ?_⟩
  refine ⟨str "ls", [str "a"], rfl, ?_⟩
  exact .inl ⟨printArgs, uniform_lookup printArgs, rfl, rfl⟩

end GoPosix.Daemon
