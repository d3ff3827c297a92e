import Mnemos.Dispatch
import Mnemos.Json

/-!
# The tools

The tools of `mcp/tools.cpp`: each checks its arguments, sends commands over
one link and makes a JSON text of the replies.
-/

namespace Mnemos

class ToolArithmetic where
  toLong : Double → ℤ
  overThousand : Double → Double

structure ToolResult where
  text : Bytes
  isError : Bool
deriving DecidableEq

def failure (text : Bytes) : ToolResult := ⟨text,true⟩

inductive Script where
  | done (result : ToolResult)
  /-- The reply is parsed into the given object; a broken link ends the tool. -/
  | send (argv : List Bytes) (out : ReplyObject) (next : ReplyObject → Script)

structure RedisTools where
  host : Bytes
  port : ℤ
  db : ℤ
  readOnly : Bool

namespace Reply

def str : Reply → Bytes
  | simpleString s | error s | bigNumber s | bulk s | verbatim s => s
  | _ => []

def elements : Reply → List Reply
  | array es | set es | push es | map es => es
  | _ => []

def isKey : Reply → Bool
  | simpleString _ | bulk _ | verbatim _ => true
  | _ => false

end Reply

section Mapping

variable [FloatText]

def textToJson (s : Bytes) : Json×Bool := (.string (sanitiseUtf8 s),!isValidUtf8 s)

def mapMembers (pairs : List (Σ _ : Reply×(Json×Bool),Reply×(Json×Bool))) : List (Bytes×Json) :=
  pairs.foldl (fun members e =>
    Json.setMember (sanitiseUtf8 e.1.1.str) e.2.2.1 members) []

def mapToJson (items : List (Reply×(Json×Bool))) : Json×Bool :=
  let pairs := pairUp items
  if pairs.all fun e => e.1.1.isKey then
    (.object (mapMembers pairs),pairs.any fun e => !isValidUtf8 e.1.1.str || e.2.2.2)
  else
    (.array (pairs.map fun e => .array [e.1.2.1,e.2.2.1]),pairs.any fun e => e.1.2.2 || e.2.2.2)

mutual

/-- With whether a text had to be repaired. -/
def replyToJson : Reply → Json×Bool
  | .simpleString s | .error s | .bulk s | .bigNumber s => textToJson s
  | .verbatim s => textToJson (if 4 < s.length then s.drop 4 else s)
  | .integer n => (.number (FloatText.ofInt n),false)
  | .double d => (.number d,false)
  | .boolean b => (.boolean b,false)
  | .null => (.null,false)
  | .array es | .set es | .push es =>
    let items := repliesToJson es
    (.array (items.map fun e => e.2.1),items.any fun e => e.2.2)
  | .map es => mapToJson (repliesToJson es)

def repliesToJson : List Reply → List (Reply×(Json×Bool))
  | [] => []
  | r::rest => (r,replyToJson r)::repliesToJson rest

end

def success (payload : Json) : ToolResult := ⟨payload.serialise,false⟩

end Mapping

/-- C `strtol` in base ten on a whole C string; none when it stops before the end. -/
def strtolWhole (s : Bytes) : Option ℤ :=
  let s := cString s
  let t := s.dropWhile isSpace
  let (negative,digits) :=
    match t with
    | 45::rest => (true,rest)
    | 43::rest => (false,rest)
    | t => (false,t)
  -- without a digit nothing is converted, and the end is the beginning
  if digits=[] ∨ !digits.all isDigit then if s=[] then some 0 else none
  else
    let magnitude : ℕ := digits.foldl (fun n c => n*10+(c.toNat-48)) 0
    some (if negative then max (-magnitude) (-2^63) else min magnitude (2^63-1))

namespace RedisTools

def kScanHardCap : ℤ := 10000

def kScanDefault : ℤ := 100

def kScanPageCount : ℕ := 500

def kScanMaxPages : ℕ := 10000

def sizeCommandFor (type : Bytes) : Option String :=
  if type=ascii "string" then some "STRLEN"
  else if type=ascii "list" then some "LLEN"
  else if type=ascii "hash" then some "HLEN"
  else if type=ascii "set" then some "SCARD"
  else if type=ascii "zset" then some "ZCARD"
  else if type=ascii "stream" then some "XLEN"
  else none

variable [FloatText]

def plainText : Json → Option Bytes
  | .string s => some s
  | .number d => some (FloatText.d2string d)
  | .boolean b => some (if b then ascii "1" else ascii "0")
  | _ => none

/-- With whether the argument is there. -/
def stringArg (args : Json) (key : String) : Bytes×Bool :=
  match args.find key with
  | none | some .null => ([],false)
  | some v => ((plainText v).getD [],true)

def longArg [ToolArithmetic] (args : Json) (key : String) : Option ℤ :=
  match args.find key with
  | some (.number d) => some (ToolArithmetic.toLong d)
  | some (.string s) => if s=[] then none else strtolWhole s
  | _ => none

def flagBinary (out : Json) (binary : Bool) : Json :=
  if binary then out.set "binary" (.boolean true) else out

section Tools

variable (tools : RedisTools) (args : Json)

def refusal (name : Bytes) : Option Bytes :=
  if tools.readOnly then
    match lookupCommand name with
    | none => some (ascii "read-only mode: unknown command '"++name++
        ascii "' cannot be classified, so it is refused")
    | some spec =>
      if spec.isWrite || spec.has Flags.kAdmin then
        some (ascii "read-only mode: "++toUpper name++
          ascii " modifies or administers the server and is refused")
      else none
  else none

def redisCommand : Script :=
  match args.find "argv" with
  | some (.array (e::es)) =>
    match (e::es).mapM plainText with
    | none => .done (failure (ascii "argv elements must be strings or numbers"))
    | some argv =>
      match tools.refusal (arg argv 0) with
      | some text => .done (failure text)
      | none =>
        .send argv {} fun o =>
          if o.reply.isError then .done (failure o.str)
          else
            let r := replyToJson o.reply
            .done (success (flagBinary ((Json.object []).set "result" r.1) r.2))
  | _ => .done (failure (ascii "argv must be a non-empty array of strings"))

def get : Script :=
  let key := stringArg args "key"
  if !key.2 then .done (failure (ascii "key is required"))
  else
    .send [ascii "GET",key.1] {} fun o =>
      if o.reply.isError then .done (failure o.str)
      else
        let r := replyToJson o.reply
        let out := (((Json.object []).set "key" (.string key.1)).set "value" r.1).set "exists"
          (.boolean !o.reply.isNull)
        .done (success (flagBinary out r.2))

/-- The part of `set` from the checked time to live on; zero for none. -/
def setWith (key value : Bytes) (ttl : ℤ) : Script :=
  let argv := [ascii "SET",key,value]++if 0 < ttl then [ascii "EX",intDecimal ttl] else []
  .send argv {} fun o =>
    if o.reply.isError then .done (failure o.str)
    else
      let out := ((Json.object []).set "key" (.string key)).set "ok" (.boolean true)
      .done (success
        (if 0 < ttl then out.set "ttl_seconds" (.number (FloatText.ofInt ttl)) else out))

def set [ToolArithmetic] : Script :=
  if tools.readOnly then .done (failure (ascii "read-only mode: set is not available"))
  else
    let key := stringArg args "key"
    let value := stringArg args "value"
    if !key.2 then .done (failure (ascii "key is required"))
    else if !value.2 then .done (failure (ascii "value is required"))
    else
      match longArg args "ttl_seconds" with
      | none => setWith key.1 value.1 0
      | some ttl =>
        if ttl ≤ 0 then .done (failure (ascii "ttl_seconds must be positive"))
        else setWith key.1 value.1 ttl

/-- The keys of one page, after those of the pages before: the keys, whether one did not fit, and
whether a text had to be repaired. -/
def takeKeys (limit : ℤ) : List Reply → List Json×Bool → List Json×Bool×Bool
  | [],(keys,binary) => (keys,false,binary)
  | k::rest,(keys,binary) =>
    if limit ≤ keys.length then (keys,true,binary)
    else takeKeys limit rest (keys++[.string (sanitiseUtf8 k.str)],binary || !isValidUtf8 k.str)

def scanResult (pattern : Bytes) (keys : List Json) (complete binary : Bool) : ToolResult :=
  let out := (Json.object []).set "pattern" (.string (if pattern=[] then ascii "*" else pattern))
  let out := out.set "count" (.number (FloatText.ofInt keys.length))
  let out := (out.set "complete" (.boolean complete)).set "keys" (.array keys)
  success (flagBinary out binary)

/-- The body of the loop of `scanKeys`, with what follows when the walk goes on. -/
def scanPage (pattern : Bytes) (limit : ℤ) (more : Bytes → List Json → Bool → Bool → Script)
    (cursor : Bytes) (keys : List Json) (truncated binary : Bool) : Script :=
  let argv := [ascii "SCAN",cursor,ascii "COUNT",natDecimal kScanPageCount]++
    if pattern=[] then [] else [ascii "MATCH",pattern]
  .send argv {} fun o =>
    if o.reply.isError then .done (failure o.str)
    else
      match o.elements with
      | [next,page] =>
        let r := takeKeys limit page.elements (keys,binary)
        let completed := next.str==ascii "0"
        let truncated := truncated || r.2.1
        if completed=false ∧ r.1.length < limit then more next.str r.1 truncated r.2.2
        else .done (scanResult pattern r.1 (completed && !truncated) r.2.2)
      | _ => .done (failure (ascii "malformed SCAN reply"))

/-- The loop of `scanKeys`, with the number of pages that may follow this one. -/
def scanPages (pattern : Bytes) (limit : ℤ) : ℕ → Bytes → List Json → Bool → Bool → Script
  | 0 => scanPage pattern limit fun _ keys _ binary =>
    .done (scanResult pattern keys false binary)
  | pages+1 => scanPage pattern limit (scanPages pattern limit pages)

def scanKeys [ToolArithmetic] : Script :=
  let pattern := stringArg args "pattern"
  match longArg args "count" with
  | none => scanPages pattern.1 kScanDefault (kScanMaxPages-1) (ascii "0") [] false false
  | some limit =>
    if limit ≤ 0 then .done (failure (ascii "count must be positive"))
    else
      scanPages pattern.1 (min limit kScanHardCap) (kScanMaxPages-1) (ascii "0") [] false false

def describeSize (key type : Bytes) (out : Json) (o : ReplyObject) : Script :=
  match sizeCommandFor type with
  | none => .done (success out)
  | some command =>
    .send [ascii command,key] o fun o =>
      if o.reply.isError then .done (success out)
      else .done (success ((out.set "size" (.number (FloatText.ofInt o.integer))).set
        "size_command" (.string (ascii command))))

def describeDeadline [ToolArithmetic] (out : Json) (o : ReplyObject) : Json :=
  if o.reply.isError then out
  else
    let out := out.set "volatile" (.boolean (decide (0 ≤ o.integer)))
    if 0 ≤ o.integer then
      let pttl := FloatText.ofInt o.integer
      (out.set "ttl_ms" (.number pttl)).set "ttl_seconds"
        (.number (ToolArithmetic.overThousand pttl))
    else out

/-- One object receives all replies. -/
def describeKey [ToolArithmetic] : Script :=
  let key := stringArg args "key"
  if !key.2 then .done (failure (ascii "key is required"))
  else
    .send [ascii "TYPE",key.1] {} fun o =>
      if o.reply.isError then .done (failure o.str)
      else
        let type := o.str
        let out := (Json.object []).set "key" (.string key.1)
        if type=ascii "none" then .done (success (out.set "exists" (.boolean false)))
        else
          let out := (out.set "exists" (.boolean true)).set "type" (.string type)
          .send [ascii "OBJECT",ascii "ENCODING",key.1] o fun o =>
            let out :=
              if o.reply.isError || o.reply.isNull then out else out.set "encoding" (.string o.str)
            .send [ascii "PTTL",key.1] o fun o =>
              describeSize key.1 type (describeDeadline out o) o

/-- What the loop of `serverInfo` keeps: the sections, the members of the current one, and its
name. -/
structure Sections where
  sections : Json
  current : List (Bytes×Json)
  name : Bytes

def Sections.flush (s : Sections) : Sections :=
  { s with
    sections := if s.current=[] then s.sections else s.sections.insert s.name (.object s.current)
    current := [] }

def Sections.line (s : Sections) (line : Bytes) : Sections :=
  let line := if line.getLast?=some 13 then line.dropLast else line
  match line with
  | [] => s
  | c::rest =>
    if c=35 then { s.flush with name := toLower (rest.dropWhile (·==32)) }
    else
      match (c::rest).findIdx? (·==58) with
      | none => s
      | some colon =>
        let value := Json.string ((c::rest).drop (colon+1))
        { s with current := Json.setMember ((c::rest).take colon) value s.current }

def infoSections (body : Bytes) : Json :=
  (((sanitiseUtf8 body).splitOn lf).foldl Sections.line
    ⟨.object [],[],ascii "server"⟩).flush.sections

def serverInfo : Script :=
  let chosen := (stringArg args "section").1
  .send (ascii "INFO"::if chosen=[] then [] else [chosen]) {} fun o =>
    if o.reply.isError then .done (failure o.str)
    else
      let out := Json.object []
      let out := if chosen=[] then out else out.set "section" (.string chosen)
      .done (success (out.set "sections" (infoSections o.str)))

def callTool [ToolArithmetic] (name : Bytes) : Script :=
  if name=ascii "redis_command" then tools.redisCommand args
  else if name=ascii "get" then get args
  else if name=ascii "set" then tools.set args
  else if name=ascii "scan_keys" then scanKeys args
  else if name=ascii "describe_key" then describeKey args
  else if name=ascii "server_info" then serverInfo args
  else .done (failure (ascii "unknown tool '"++name++ascii "'"))

end Tools

section Running

open Talk

variable {W : Type} (net : Net W) (fuel : ℕ) (tools : RedisTools)

/-- The part of `ensureConnected` that selects the database. -/
def selectDb : Talk W (Option Bytes) := do
  if tools.db=0 then pure none
  else
    let r ← RespClient.command net fuel false [ascii "SELECT",intDecimal tools.db] {}
    if r.1.isNone ∧ r.2.reply.isError then
      RespClient.close net
      pure (some r.2.str)
    else pure r.1

def ensureConnected : Talk W (Option Bytes) := do
  let l ← link
  if l.client.connected then pure none
  else
    let failed ← RespClient.connect net tools.host tools.port
    match failed with
    | some error => pure (some error)
    | none =>
      let failed ← RespClient.negotiateResp3 net fuel
      match failed with
      | some error => pure (some error)
      | none => tools.selectDb net fuel

/-- The second try of `run`; when no connection can be made, the error is that of the first. -/
def retry (argv : List Bytes) (first : Option Bytes×ReplyObject) :
    Talk W (Option Bytes×ReplyObject) := do
  let failed ← tools.ensureConnected net fuel
  match failed with
  | some _ => pure first
  | none => RespClient.command net fuel true argv first.2

/-- With the error text and what became of the object. -/
def run (argv : List Bytes) (out : ReplyObject) : Talk W (Option Bytes×ReplyObject) := do
  let failed ← tools.ensureConnected net fuel
  match failed with
  | some error => pure (some error,out)
  | none =>
    let r ← RespClient.command net fuel true argv out
    if r.1.isNone then pure r else tools.retry net fuel argv r

def perform : Script → Talk W ToolResult
  | .done result => pure result
  | .send argv out next => do
    let r ← tools.run net fuel argv out
    match r.1 with
    | some error => pure (failure (ascii "connection failed: "++error))
    | none => perform (next r.2)

def callTools [ToolArithmetic] : List (Bytes×Json) → Talk W (List ToolResult)
  | [] => pure []
  | call::rest => do
    let result ← tools.perform net fuel (tools.callTool call.2 call.1)
    let results ← callTools rest
    pure (result::results)

end Running

end RedisTools

end Mnemos
