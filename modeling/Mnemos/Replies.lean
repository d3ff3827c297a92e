import Mnemos.Double
import Mnemos.Request

/-!
# Writing replies

The writer of `net/resp.cpp`: one call writes one token, and some tokens are
spelled differently in the two protocol versions.
-/

namespace Mnemos

inductive Token where
  | simpleString (s : Bytes)
  | error (msg : Bytes)
  | integer (n : ℤ)
  | bulk (s : Bytes)
  | verbatim (s format : Bytes)
  | nullBulk
  | nullArray
  | arrayHeader (n : ℤ)
  | mapHeader (pairs : ℤ)
  | setHeader (n : ℤ)
  | pushHeader (n : ℤ)
  | boolean (b : Bool)
  | doubleValue (d : Double)
  | bigNumber (digits : Bytes)

def appendLine (lead : Char) (body : Bytes) : Bytes := UInt8.ofNat lead.toNat::body++crlf

def appendCount (lead : Char) (n : ℤ) : Bytes := appendLine lead (intDecimal n)

def appendBulk (s : Bytes) : Bytes := appendCount '$' s.length++s++crlf

/-- A reply keeps the sign of zero. -/
def formatDouble [FloatText] (d : Double) : Bytes :=
  if d.eq .zero && 2^63 ≤ d.bits.toNat then ascii "-0" else FloatText.d2string d

def Token.encode [FloatText] (protover : ℕ) : Token → Bytes
  | .simpleString s => appendLine '+' s
  | .error msg => appendLine '-' msg
  | .integer n => appendCount ':' n
  | .bulk s => appendBulk s
  | .verbatim s format =>
    if protover < 3 then appendBulk s
    else appendCount '=' (s.length+4)++format.take 3++ascii ":"++s++crlf
  | .nullBulk => if 3 ≤ protover then ascii "_"++crlf else ascii "$-1"++crlf
  | .nullArray => if 3 ≤ protover then ascii "_"++crlf else ascii "*-1"++crlf
  | .arrayHeader n => appendCount '*' n
  | .mapHeader pairs => if 3 ≤ protover then appendCount '%' pairs else appendCount '*' (pairs*2)
  | .setHeader n => if 3 ≤ protover then appendCount '~' n else appendCount '*' n
  | .pushHeader n => if 3 ≤ protover then appendCount '>' n else appendCount '*' n
  | .boolean b =>
    if 3 ≤ protover then (if b then ascii "#t" else ascii "#f")++crlf
    else (if b then ascii ":1" else ascii ":0")++crlf
  | .doubleValue d =>
    if 3 ≤ protover then appendLine ',' (formatDouble d) else appendBulk (formatDouble d)
  | .bigNumber digits => if 3 ≤ protover then appendLine '(' digits else appendBulk digits

def bulkArray (items : List Bytes) : List Token := .arrayHeader items.length::items.map .bulk

inductive Response where
  | error (text : Bytes)
  | tokens (ts : List Token)
  /-- Tokens written for a version that the handler has just chosen. -/
  | tokensAt (protover : ℕ) (ts : List Token)
  | terminated

namespace Response

def isError : Response → Bool
  | .error _ => true
  | _ => false

def encode [FloatText] (protover : ℕ) : Response → Bytes
  | .error text => Token.encode protover (.error text)
  | .tokens ts => ts.flatMap (Token.encode protover)
  | .tokensAt own ts => ts.flatMap (Token.encode own)
  | .terminated => []

def token (t : Token) : Response := .tokens [t]

def integer (n : ℤ) : Response := token (.integer n)

def bulk (s : Bytes) : Response := token (.bulk s)

def nullBulk : Response := token .nullBulk

def ok : Response := token (.simpleString (ascii "OK"))

def err (text : String) : Response := .error (ascii text)

def wrongType : Response :=
  err "WRONGTYPE Operation against a key holding the wrong kind of value"

def syntaxError : Response := err "ERR syntax error"

def notAnInteger : Response := err "ERR value is not an integer or out of range"

def notAFloat : Response := err "ERR value is not a valid float"

def wrongArgsText (command : Bytes) : Bytes :=
  ascii "wrong number of arguments for '"++command++ascii "' command"

def wrongArgs (command : String) : Response :=
  .error (ascii "ERR "++wrongArgsText (ascii command))

def badDumpPayload : Response := err "ERR DUMP payload version or checksum are wrong"

def badDataFormat : Response := err "ERR Bad data format"

def busyKey : Response := err "BUSYKEY Target key name already exists."

def invalidRestoreTtl : Response := err "ERR Invalid TTL value, must be >= 0"

def invalidIdletime : Response := err "ERR Invalid IDLETIME value, must be >= 0"

def invalidFreq : Response := err "ERR Invalid FREQ value, must be >= 0 and <= 255"

def subscriberModeText (command : Bytes) : Bytes :=
  ascii "Can't execute '"++command++
    ascii "': only (P|S)SUBSCRIBE / (P|S)UNSUBSCRIBE / PING / QUIT / RESET are allowed in this context"

def unknownSubcommand (container : String) (sub : Bytes) : Response :=
  .error (ascii "ERR unknown subcommand '"++sub++ascii "'. Try "++ascii container++ascii " HELP.")

def subcommandSyntaxError (container : String) (sub : Bytes) : Response :=
  .error (ascii "ERR unknown subcommand or wrong number of arguments for '"++sub++
    ascii "'. Try "++ascii container++ascii " HELP.")

end Response

/-! ## Reading replies -/

open Request

inductive Reply where
  | null
  | simpleString (s : Bytes)
  | error (s : Bytes)
  | bigNumber (s : Bytes)
  | integer (n : ℤ)
  | double (d : Double)
  | boolean (b : Bool)
  | bulk (s : Bytes)
  | verbatim (s : Bytes)
  | array (elements : List Reply)
  | set (elements : List Reply)
  | push (elements : List Reply)
  | map (elements : List Reply)

inductive ReplyFailure where
  | incomplete
  | refused (text : Bytes)
  | raised

def replyVectorMaxSize : ℤ := (2^63-1)/80

/-- The line from the type byte to the carriage return, without the type byte, and what
follows it. -/
def readLine (buf : Bytes) : Option (Bytes×Bytes) :=
  match findCrlf buf with
  | none => none
  | some cr => some ((buf.take cr).drop 1,buf.drop (cr+2))

def parseElements (parseOne : Bytes → Except ReplyFailure (Reply×Bytes)) :
    ℕ → Bytes → Except ReplyFailure (List Reply×Bytes)
  | 0,buf => .ok ([],buf)
  | n+1,buf =>
    match parseOne buf with
    | .error e => .error e
    | .ok (r,rest) =>
      match parseElements parseOne n rest with
      | .error e => .error e
      | .ok (rs,rest) => .ok (r::rs,rest)

/-- The total of a map that does not fit `long` is taken as too large. -/
def parseAggregate (parseOne : Bytes → Except ReplyFailure (Reply×Bytes)) (multiplier : ℤ)
    (make : List Reply → Reply) (buf : Bytes) : Except ReplyFailure (Reply×Bytes) :=
  match readLine buf with
  | none => .error .incomplete
  | some (line,rest) =>
    match parseLong line with
    | none => .error (.refused (ascii "Protocol error: invalid aggregate length"))
    | some count =>
      if count < 0 then .ok (.null,rest)
      else if replyVectorMaxSize < count*multiplier then .error .raised
      else
        match parseElements parseOne (count*multiplier).toNat rest with
        | .error e => .error e
        | .ok (rs,rest) => .ok (make rs,rest)

def parseText (make : Bytes → Reply) (buf : Bytes) : Except ReplyFailure (Reply×Bytes) :=
  match readLine buf with
  | none => .error .incomplete
  | some (line,rest) =>
    match parseLong line with
    | none => .error (.refused (ascii "Protocol error: invalid bulk length"))
    | some len =>
      if len < 0 then .ok (.null,rest)
      else if (rest.length : ℤ) < len+2 then .error .incomplete
      else .ok (make (rest.take len.toNat),rest.drop (len.toNat+2))

def parseLineReply (make : Bytes → Reply) (buf : Bytes) : Except ReplyFailure (Reply×Bytes) :=
  match readLine buf with
  | none => .error .incomplete
  | some (line,rest) => .ok (make line,rest)

def readDouble [FloatText] (s : Bytes) : Double :=
  if s=ascii "inf" then .infinity
  else if s=ascii "-inf" then .negInfinity
  else if s=ascii "nan" then .nan
  else FloatText.strtod s

def parseReplyInner [FloatText] : ℕ → Bytes → Except ReplyFailure (Reply×Bytes)
  | 0,_ => .error .incomplete
  | _+1,[] => .error .incomplete
  | depth+1,type::s =>
    let buf := type::s
    if type=43 then parseLineReply .simpleString buf
    else if type=45 then parseLineReply .error buf
    else if type=40 then parseLineReply .bigNumber buf
    else if type=58 then
      match readLine buf with
      | none => .error .incomplete
      | some (line,rest) =>
        match parseLong line with
        | none => .error (.refused (ascii "Protocol error: invalid integer"))
        | some v => .ok (.integer v,rest)
    else if type=44 then parseLineReply (fun line => .double (readDouble line)) buf
    else if type=35 then parseLineReply (fun line => .boolean (line.head?==some 116)) buf
    else if type=95 then parseLineReply (fun _ => .null) buf
    else if type=36 then parseText .bulk buf
    else if type=33 then parseText .error buf
    else if type=61 then parseText .verbatim buf
    else if type=42 then parseAggregate (parseReplyInner depth) 1 .array buf
    else if type=126 then parseAggregate (parseReplyInner depth) 1 .set buf
    else if type=62 then parseAggregate (parseReplyInner depth) 1 .push buf
    else if type=37 then parseAggregate (parseReplyInner depth) 2 .map buf
    else .error (.refused (ascii "Protocol error: unknown reply type byte '"++[type]++ascii "'"))

/-- Every level of a reply takes a byte of its own. -/
def parseReply [FloatText] (buf : Bytes) : Except ReplyFailure (Reply×Bytes) :=
  parseReplyInner (buf.length+1) buf

def IsErrorFrame [FloatText] (bytes : Bytes) : Prop :=
  ∃ text,parseReply bytes=.ok (.error text,[])

/-! ## The client side of a link -/

inductive SendResult where
  | sent (more : ℕ)
  | interrupted
  | closed
  /-- Any other error, with the text of `strerror`. -/
  | failed (reason : Bytes)

inductive RecvResult where
  | received (first : UInt8) (more : Bytes)
  | interrupted
  | closed
  /-- Any other error and the timeout, with the text of `strerror`. -/
  | failed (reason : Bytes)

inductive ConnectResult where
  | connected
  /-- With the text of `gai_strerror`. -/
  | unresolved (reason : Bytes)
  | refused (reason : Option Bytes)

structure Net (W : Type) where
  connect : W → ConnectResult×W
  send : Bytes → W → SendResult×W
  recv : W → RecvResult×W
  close : W → W

namespace Reply

def isError : Reply → Bool
  | error _ => true
  | _ => false

def isNull : Reply → Bool
  | null => true
  | _ => false

end Reply

/-- A `Reply` object of the source: a parse assigns the members that its kind of reply has, and the
others keep what they had. -/
structure ReplyObject where
  reply : Reply := .null
  str : Bytes := []
  integer : ℤ := 0
  elements : List Reply := []

namespace ReplyObject

def assign (o : ReplyObject) (r : Reply) : ReplyObject :=
  match r with
  | .simpleString s | .error s | .bigNumber s | .bulk s | .verbatim s =>
    { o with reply := r, str := s }
  | .integer n => { o with reply := r, integer := n }
  | .array es | .set es | .push es | .map es => { o with reply := r, elements := es }
  | .null | .double _ | .boolean _ => { o with reply := r }

def firstElements (parseOne : Bytes → Except ReplyFailure (Reply×Bytes)) : ℕ → Bytes → List Reply
  | 0,_ => []
  | n+1,buf =>
    match parseOne buf with
    | .error _ => []
    | .ok (r,rest) => r::firstElements parseOne n rest

/-- What a parse that does not succeed leaves: the elements that an aggregate has so far. -/
def attempt [FloatText] (o : ReplyObject) (buf : Bytes) : ReplyObject :=
  match buf with
  | [] => o
  | type::_ =>
    if type=42 ∨ type=126 ∨ type=62 ∨ type=37 then
      match readLine buf with
      | none => o
      | some (line,rest) =>
        match Request.parseLong line with
        | none => o
        | some count =>
          { o with elements :=
              firstElements parseReply (count*if type=37 then 2 else 1).toNat rest }
    else o

end ReplyObject

/-- The bytes before `pos_` are never kept. -/
structure RespClient where
  connected : Bool := false
  buf : Bytes := []
  protover : ℕ := 2

structure Sent (W : Type) where
  argv : List Bytes
  own : Bool
  before : W
  after : Option W := none
  answer : Option (Reply×W) := none

structure Link (W : Type) where
  client : RespClient
  world : W
  sent : List (Sent W) := []

inductive Halt where
  | waiting
  | raised
deriving DecidableEq

def Talk (W A : Type) : Type := Link W → Except Halt A×Link W

instance {W : Type} : Monad (Talk W) where
  pure a := fun l => (.ok a,l)
  bind c f := fun l =>
    match c l with
    | (.ok a,l) => f a l
    | (.error halt,l) => (.error halt,l)

namespace Talk

variable {W : Type}

def link : Talk W (Link W) := fun l => (.ok l,l)

def modifyClient (f : RespClient → RespClient) : Talk W Unit :=
  fun l => (.ok (),{ l with client := f l.client })

def system {A : Type} (f : W → A×W) : Talk W A :=
  fun l => (.ok (f l.world).1,{ l with world := (f l.world).2 })

def halt {A : Type} (why : Halt) : Talk W A := fun l => (.error why,l)

def began (e : Sent W) : Talk W Unit := fun l => (.ok (),{ l with sent := l.sent++[e] })

def went (e : Sent W) : Talk W Unit := fun l => (.ok (),{ l with sent := l.sent.dropLast++[e] })

end Talk

namespace RespClient

open Talk

variable {W : Type} (net : Net W)

def close : Talk W Unit := do
  let l ← link
  if l.client.connected then system fun w => ((),net.close w)
  modifyClient fun c => { c with connected := false, buf := [] }

def connect (host : Bytes) (port : ℤ) : Talk W (Option Bytes) := do
  close net
  let r ← system net.connect
  match r with
  | .unresolved reason => pure (some (ascii "cannot resolve "++host++ascii ": "++reason))
  | .refused reason =>
    let text := ascii "cannot connect to "++host++ascii ":"++intDecimal port
    pure (some (match reason with
      | none => text
      | some reason => text++ascii ": "++reason))
  | .connected =>
    modifyClient fun c => { c with connected := true }
    pure none

def sendAll : ℕ → Bytes → Talk W (Option Bytes)
  | _,[] => pure none
  | 0,_::_ => halt .waiting
  | fuel+1,b::bytes => do
    let r ← system (net.send (b::bytes))
    match r with
    | .sent more => sendAll fuel (bytes.drop more)
    | .interrupted => sendAll fuel (b::bytes)
    | .closed =>
      close net
      pure (some (ascii "connection closed while sending"))
    | .failed reason =>
      close net
      pure (some (ascii "send failed: "++reason))

variable [FloatText]

/-- The loop of `readReply`, with the error text and what became of the object. -/
def readLoop : ℕ → ReplyObject → Talk W (Option Bytes×ReplyObject)
  | 0,_ => halt .waiting
  | fuel+1,out => do
    let l ← link
    match parseReply l.client.buf with
    | .ok (r,rest) =>
      modifyClient fun c => { c with buf := rest }
      pure (none,out.assign r)
    | .error (.refused text) =>
      close net
      pure (some text,out.attempt l.client.buf)
    | .error .raised => halt .raised
    | .error .incomplete =>
      let out := out.attempt l.client.buf
      let r ← system net.recv
      match r with
      | .received first more =>
        modifyClient fun c => { c with buf := c.buf++first::more }
        readLoop fuel out
      | .interrupted => readLoop fuel out
      | .closed =>
        close net
        pure (some (ascii "connection closed by peer"),out)
      | .failed reason =>
        close net
        pure (some (ascii "read failed: "++reason),out)

def readReply (fuel : ℕ) (out : ReplyObject) : Talk W (Option Bytes×ReplyObject) := do
  let l ← link
  if l.client.connected then readLoop net fuel out
  else pure (some (ascii "not connected"),out)

/-- With the error text and what became of the object. -/
def command (fuel : ℕ) (own : Bool) (argv : List Bytes) (out : ReplyObject) :
    Talk W (Option Bytes×ReplyObject) := do
  let l ← link
  if l.client.connected then
    let e : Sent W := { argv := argv, own := own, before := l.world }
    began e
    let failed ← sendAll net fuel (Request.encodeCommand argv)
    match failed with
    | some error => pure (some error,out)
    | none =>
      let l ← link
      let e := { e with after := some l.world }
      went e
      let r ← readReply net fuel out
      if r.1.isNone then
        let l ← link
        went { e with answer := some (r.2.reply,l.world) }
      pure r
  else pure (some (ascii "not connected"),out)

def negotiateResp3 (fuel : ℕ) : Talk W (Option Bytes) := do
  let r ← command net fuel false [ascii "HELLO",ascii "3"] {}
  if r.1.isNone then
    modifyClient fun c => { c with protover := if r.2.reply.isError then 2 else 3 }
  pure r.1

end RespClient

end Mnemos
