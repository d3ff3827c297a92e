import Mathlib.Data.Stream.Init
import Mnemos.Asking
import Mnemos.KafkaBatches
import Mnemos.Replies

/-!
# The partition log as keys

`kafka/log.cpp`: a partition is a list of stored records, a topic a member of
one set and a hash with its number of partitions.
-/

namespace Mnemos.Kafka

/-! ## A keyspace -/

inductive Item where
  | set (members : List Bytes)
  | hash (fields : List (Bytes×Bytes))
  | list (elements : List Bytes)
deriving DecidableEq

def Store : Type := Bytes → Option Item

namespace Store

def empty : Store := fun _ => none

def put (s : Store) (key : Bytes) (item : Item) : Store :=
  fun k => if k=key then some item else s k

@[simp] theorem put_self (s : Store) (key : Bytes) (item : Item) : s.put key item key=some item :=
  if_pos rfl

theorem put_of_ne {key key' : Bytes} (h : key'≠key) (s : Store) (item : Item) :
    s.put key item key'=s key' := if_neg h

def wrongType : Reply :=
  .error (ascii "WRONGTYPE Operation against a key holding the wrong kind of value")

def rpush (s : Store) (key : Bytes) (values : List Bytes) : Reply×Store :=
  match s key with
  | none => (.integer values.length,s.put key (.list values))
  | some (.list es) => (.integer (es++values).length,s.put key (.list (es++values)))
  | some _ => (wrongType,s)

def llen (s : Store) (key : Bytes) : Reply :=
  match s key with
  | none => .integer 0
  | some (.list es) => .integer es.length
  | some _ => wrongType

def slice (es : List Bytes) (start stop : ℤ) : List Bytes :=
  let start := if start < 0 then max 0 (start+es.length) else start
  let stop := if stop < 0 then stop+es.length else stop
  if stop < start then [] else (es.drop start.toNat).take (stop-start+1).toNat

def lrange (s : Store) (key start stop : Bytes) : Reply :=
  match stringToInt64 start,stringToInt64 stop with
  | some start,some stop =>
    match s key with
    | none => .array []
    | some (.list es) => .array ((slice es start stop).map .bulk)
    | some _ => wrongType
  | _,_ => .error (ascii "ERR value is not an integer or out of range")

def lindex (s : Store) (key index : Bytes) : Reply :=
  match stringToInt64 index with
  | none => .error (ascii "ERR value is not an integer or out of range")
  | some i =>
    match s key with
    | none => .null
    | some (.list es) =>
      let i := if i < 0 then i+es.length else i
      if i < 0 then .null
      else
        match es[i.toNat]? with
        | some e => .bulk e
        | none => .null
    | some _ => wrongType

def sadd (s : Store) (key member : Bytes) : Reply×Store :=
  match s key with
  | none => (.integer 1,s.put key (.set [member]))
  | some (.set ms) =>
    if ms.contains member then (.integer 0,s) else (.integer 1,s.put key (.set (ms++[member])))
  | some _ => (wrongType,s)

def smembers (s : Store) (key : Bytes) : Reply :=
  match s key with
  | none => .array []
  | some (.set ms) => .array (ms.map .bulk)
  | some _ => wrongType

def hsetnx (s : Store) (key field value : Bytes) : Reply×Store :=
  match s key with
  | none => (.integer 1,s.put key (.hash [(field,value)]))
  | some (.hash fs) =>
    match fs.lookup field with
    | some _ => (.integer 0,s)
    | none => (.integer 1,s.put key (.hash (fs++[(field,value)])))
  | some _ => (wrongType,s)

def hget (s : Store) (key field : Bytes) : Reply :=
  match s key with
  | none => .null
  | some (.hash fs) =>
    match fs.lookup field with
    | some v => .bulk v
    | none => .null
  | some _ => wrongType

def execFixed (s : Store) (name key : Bytes) : List Bytes → Reply×Store
  | [] =>
    if name=ascii "LLEN" then (s.llen key,s)
    else if name=ascii "SMEMBERS" then (s.smembers key,s)
    else if name=ascii "SELECT" then (.simpleString (ascii "OK"),s)
    else (.error (ascii "ERR"),s)
  | [x] =>
    if name=ascii "SADD" then s.sadd key x
    else if name=ascii "HGET" then (s.hget key x,s)
    else if name=ascii "LINDEX" then (s.lindex key x,s)
    else (.error (ascii "ERR"),s)
  | [x,y] =>
    if name=ascii "HSETNX" then s.hsetnx key x y
    else if name=ascii "LRANGE" then (s.lrange key x y,s)
    else (.error (ascii "ERR"),s)
  | _ => (.error (ascii "ERR"),s)

/-- One command, with the reply and what becomes of the keyspace. The keyspace is that of the
database that the link has selected. -/
def exec (s : Store) : List Bytes → Reply×Store
  | name::key::args =>
    if name=ascii "RPUSH" ∧ args≠[] then s.rpush key args else s.execFixed name key args
  | _ => (.error (ascii "ERR"),s)

end Store

/-! ## The client of the log -/

inductive Ask where
  | connected
  | connect (host : Bytes) (port : ℤ)
  | command (argv : List Bytes)
  | close
  | now

def Ask.Answer : Ask → Type
  | connected => Bool
  | connect _ _ => Option Bytes
  | command _ => Except Bytes Reply
  | close => Unit
  | now => ℤ

abbrev Prog := Asking Ask Ask.Answer

inductive Turn where
  | answered
  | refused (text : Bytes)
  | lost (text : Bytes)
  /-- The command is executed and the link fails before the reply arrives. -/
  | unheard (text : Bytes)

/-- The keyspace and the client's link to it, with what is still to happen. -/
structure Session where
  store : Store
  linked : Bool
  turns : Stream' Turn
  clock : Stream' ℤ

namespace Session

def command (s : Session) (argv : List Bytes) : Except Bytes Reply×Session :=
  if s.linked=false then (.error (ascii "not connected"),s)
  else
    let rest := { s with turns := s.turns.tail }
    match s.turns.head with
    | .answered => (.ok (s.store.exec argv).1,{ rest with store := (s.store.exec argv).2 })
    | .refused text => (.ok (.error text),rest)
    | .lost text => (.error text,{ rest with linked := false })
    | .unheard text => (.error text,{ rest with store := (s.store.exec argv).2, linked := false })

def connect (s : Session) : Option Bytes×Session :=
  let rest := { s with turns := s.turns.tail }
  match s.turns.head with
  | .answered => (none,{ rest with linked := true })
  | .refused text | .lost text | .unheard text => (some text,{ rest with linked := false })

def answer : (q : Ask) → Session → q.Answer×Session
  | .connected,s => (s.linked,s)
  | .connect _ _,s => s.connect
  | .command argv,s => s.command argv
  | .close,s => ((),{ s with linked := false })
  | .now,s => (s.clock.head,{ s with clock := s.clock.tail })

end Session

/-! ## The log -/

structure PartitionLog where
  host : Bytes := ascii "127.0.0.1"
  port : ℤ := 6380
  db : ℤ := 0

abbrev Log := ExceptT Bytes Prog

def kTopicSetKey : Bytes := ascii "kafka:topics"

def partitionsField : Bytes := ascii "partitions"

def logKey (topic : Bytes) (partition : ℤ) : Bytes :=
  ascii "kafka:log:"++topic++ascii ":"++intDecimal partition

def metaKey (topic : Bytes) : Bytes := ascii "kafka:meta:"++topic

def strtol (s : Bytes) : ℤ :=
  let s := s.dropWhile isSpace
  let digits := (if s.head?=some 45 ∨ s.head?=some 43 then s.tail else s).takeWhile isDigit
  let v := digits.foldl (fun (n : ℤ) c => n*10+(c.toNat-48 : ℕ)) 0
  if s.head?=some 45 then max (-v) (-2^63) else min v (2^63-1)

def wrap32 (v : ℤ) : ℤ := toSigned 32 (toUnsigned 32 v)

def bytesLe : Bytes → Bytes → Bool
  | [],_ => true
  | _::_,[] => false
  | a::as,b::bs => if a < b then true else if b < a then false else bytesLe as bs

namespace PartitionLog

def connected : Log Bool := ExceptT.lift (Asking.question (R := Ask.Answer) .connected)

def connect (host : Bytes) (port : ℤ) : Log (Option Bytes) :=
  ExceptT.lift (Asking.question (R := Ask.Answer) (.connect host port))

def command (argv : List Bytes) : Log (Except Bytes Reply) :=
  ExceptT.lift (Asking.question (R := Ask.Answer) (.command argv))

def disconnect : Prog Unit := Asking.question (R := Ask.Answer) .close

def outcome : Except Bytes Reply → Log ReplyObject
  | .error e => throw e
  | .ok r =>
    let out := ({} : ReplyObject).assign r
    if r.isError then throw out.str else pure out

def call (argv : List Bytes) : Log ReplyObject := command argv >>= outcome

def select (db : ℤ) : Log Unit :=
  tryCatch (discard (call [ascii "SELECT",intDecimal db])) fun e => do
    disconnect
    throw e

def ensureConnected (log : PartitionLog) : Log Unit := do
  if ← connected then pure ()
  else
    match ← connect log.host log.port with
    | some e => throw e
    | none => if log.db=0 then pure () else select log.db

def createTopic (log : PartitionLog) (topic : Bytes) (partitions : ℤ) : Log Unit := do
  log.ensureConnected
  let _ ← call [ascii "SADD",kTopicSetKey,topic]
  let _ ← call [ascii "HSETNX",metaKey topic,partitionsField,intDecimal partitions]

def topicPartitions (log : PartitionLog) (topic : Bytes) : Log ℤ := do
  log.ensureConnected
  let reply ← call [ascii "HGET",metaKey topic,partitionsField]
  if reply.reply.isNull ∨ reply.str=[] then pure 0
  else pure (max 0 (wrap32 (strtol reply.str)))

def listTopics (log : PartitionLog) : Log (List Bytes) := do
  log.ensureConnected
  let reply ← call [ascii "SMEMBERS",kTopicSetKey]
  pure ((reply.elements.map fun e => (({} : ReplyObject).assign e).str).mergeSort bytesLe)

def highWatermark (log : PartitionLog) (topic : Bytes) (partition : ℤ) : Log ℤ := do
  log.ensureConnected
  let reply ← call [ascii "LLEN",logKey topic partition]
  pure reply.integer

def append (log : PartitionLog) (topic : Bytes) (partition : ℤ) (records : List Record) :
    Log ℤ := do
  if records=[] then log.highWatermark topic partition
  else
    log.ensureConnected
    let reply ← call (ascii "RPUSH"::logKey topic partition::records.map encodeStoredRecord)
    pure (reply.integer-records.length)

def decodeElements : ℤ → List Reply → Except Bytes (List Record)
  | _,[] => .ok []
  | offset,e::es => do
    match decodeStoredRecord (({} : ReplyObject).assign e).str with
    | none => .error (ascii "corrupt record at offset "++intDecimal offset)
    | some r =>
      let rest ← decodeElements (offset+1) es
      pure ({ r with offset := offset }::rest)

def decoded (offset : ℤ) (reply : ReplyObject) : Log (List Record) :=
  match decodeElements offset reply.elements with
  | .ok records => pure records
  | .error e => throw e

def read (log : PartitionLog) (topic : Bytes) (partition offset maxRecords : ℤ) :
    Log (List Record) := do
  if maxRecords ≤ 0 then pure []
  else
    log.ensureConnected
    let last := wrap64 (offset+maxRecords-1)
    let reply ← call [ascii "LRANGE",logKey topic partition,intDecimal offset,intDecimal last]
    decoded offset reply

/-- The binary search of `offsetForTimestamp` between two offsets; it has fewer steps than there
are offsets between them. -/
def searchTimestamp (key : Bytes) (timestamp : ℤ) : ℕ → ℤ → ℤ → Log ℤ
  | 0,lo,_ => pure lo
  | steps+1,lo,hi => do
    if lo < hi then
      let mid := lo+(hi-lo)/2
      let reply ← call [ascii "LINDEX",key,intDecimal mid]
      let found := if reply.reply.isNull then none else decodeStoredRecord reply.str
      match found with
      | none => throw (ascii "corrupt record at offset "++intDecimal mid)
      | some r =>
        if r.timestamp < timestamp then searchTimestamp key timestamp steps (mid+1) hi
        else searchTimestamp key timestamp steps lo mid
    else pure lo

def offsetForTimestamp (log : PartitionLog) (topic : Bytes) (partition timestamp : ℤ) :
    Log ℤ := do
  let hw ← log.highWatermark topic partition
  if hw=0 then pure (-1)
  else
    let lo ← searchTimestamp (logKey topic partition) timestamp hw.toNat 0 hw
    pure (if lo < hw then lo else -1)

end PartitionLog

/-! ## Many brokers on one keyspace -/

open List

inductive Call where
  | append (topic : Bytes) (partition : ℤ) (records : List Record)
  | read (topic : Bytes) (partition offset maxRecords : ℤ)
  | highWatermark (topic : Bytes) (partition : ℤ)

inductive Answer where
  | offset (n : ℤ)
  | records (rs : List Record)
deriving DecidableEq

def Call.program (log : PartitionLog) : Call → Prog (Except Bytes Answer)
  | append topic partition records =>
    (do return .offset (← log.append topic partition records) : Log Answer).run
  | read topic partition offset maxRecords =>
    (do return .records (← log.read topic partition offset maxRecords) : Log Answer).run
  | highWatermark topic partition =>
    (do return .offset (← log.highWatermark topic partition) : Log Answer).run

structure Worker where
  log : PartitionLog
  linked : Bool
  work : Option (Call×Prog (Except Bytes Answer))

structure Done where
  call : Call
  answer : Except Bytes Answer

structure Cluster where
  store : Store
  brokers : ℕ → Worker
  /-- The calls that are over, in the order in which their last commands were executed. -/
  finished : List Done

inductive Act where
  | start (broker : ℕ) (call : Call)
  | proceed (broker : ℕ)

namespace Cluster

def session (c : Cluster) (i : ℕ) : Session :=
  { store := c.store, linked := (c.brokers i).linked
    turns := Stream'.const .answered, clock := Stream'.const 0 }

def settle (c : Cluster) (i : ℕ) (call : Call) : Prog (Except Bytes Answer) → Cluster
  | .done a =>
    { c with
      brokers := Function.update c.brokers i { c.brokers i with work := none }
      finished := c.finished++[⟨call,a⟩] }
  | .ask q next =>
    { c with
      brokers := Function.update c.brokers i { c.brokers i with work := some (call,.ask q next) } }

def used (c : Cluster) (i : ℕ) (s : Session) : Cluster :=
  { c with
    store := s.store
    brokers := Function.update c.brokers i { c.brokers i with linked := s.linked } }

section Fields

variable (c : Cluster) (i : ℕ) (call : Call) (p : Prog (Except Bytes Answer)) (s : Session)

@[simp] theorem settle_store : (c.settle i call p).store=c.store := by cases p <;> rfl

@[simp] theorem settle_linked : ((c.settle i call p).brokers i).linked=(c.brokers i).linked := by
  cases p <;> simp [settle]

theorem settle_others {j : ℕ} (h : j≠i) : (c.settle i call p).brokers j=c.brokers j := by
  cases p <;> simp [settle,h]

@[simp] theorem used_linked : ((c.used i s).brokers i).linked=s.linked := by simp [used]

theorem used_others {j : ℕ} (h : j≠i) : (c.used i s).brokers j=c.brokers j := by simp [used,h]

end Fields

def step (c : Cluster) : Act → Cluster
  | .start i call =>
    if (c.brokers i).work.isNone then c.settle i call (call.program (c.brokers i).log) else c
  | .proceed i =>
    match (c.brokers i).work with
    | some (call,.ask q next) =>
      (c.used i (Session.answer q (c.session i)).2).settle i call
        (next (Session.answer q (c.session i)).1)
    | _ => c

def run (c : Cluster) (acts : List Act) : Cluster := acts.foldl step c

/-- Nothing is stored under any partition and nobody is in a call. -/
structure Fresh (c : Cluster) : Prop where
  store : ∀ topic partition,c.store (logKey topic partition)=none
  idle : ∀ i,(c.brokers i).work=none
  finished : c.finished=[]

def log (c : Cluster) (topic : Bytes) (partition : ℤ) : Option (List Record) :=
  match c.store (logKey topic partition) with
  | none => some []
  | some (.list es) => (PartitionLog.decodeElements 0 (es.map .bulk)).toOption
  | some _ => none

end Cluster

/-! ## Keys -/

theorem append_separator_inj {x : UInt8} {a b a' b' : Bytes} (hb : x∉b) (hb' : x∉b')
    (h : a++x::b=a'++x::b') : a=a' ∧ b=b' := by
  rw [append_eq_append_iff] at h
  rcases h with ⟨c,hc,hrest⟩ | ⟨c,hc,hrest⟩
  · cases c with
    | nil =>
      rw [append_nil] at hc
      exact ⟨hc.symm,(List.cons.inj hrest).2⟩
    | cons y c =>
      have hmem : x∈b := by
        rw [(List.cons.inj hrest).2]
        simp
      exact absurd hmem hb
  · cases c with
    | nil =>
      rw [append_nil] at hc
      exact ⟨hc,(List.cons.inj hrest).2.symm⟩
    | cons y c =>
      have hmem : x∈b' := by
        rw [(List.cons.inj hrest).2]
        simp
      exact absurd hmem hb'

theorem colon_notMem_intDecimal (n : ℤ) : 58∉intDecimal n := by
  have hnat : ∀ a : ℕ,58∉natDecimal a := by
    intro a h
    exact absurd (natDecimal_digits a 58 h) (by decide)
  intro h
  rw [intDecimal] at h
  split at h
  · rw [mem_cons] at h
    cases h with
    | inl h => exact absurd h (by decide)
    | inr h => exact hnat _ h
  · exact hnat _ h

theorem logKey_inj {topic topic' : Bytes} {partition partition' : ℤ}
    (h : logKey topic partition=logKey topic' partition') :
    topic=topic' ∧ partition=partition' := by
  have hcolon : ascii ":"=[58] := by decide
  simp only [logKey,hcolon,append_assoc,append_cancel_left_eq] at h
  have hparts := append_separator_inj (colon_notMem_intDecimal partition)
    (colon_notMem_intDecimal partition') h
  exact ⟨hparts.1,intDecimal_inj hparts.2⟩

/-! ## Programs up to their command -/

/-- With a link that does not fail the program comes to this command, having asked for nothing
that reads or changes the keyspace, and goes on with its reply. -/
inductive Ready (argv : List Bytes) (next : Except Bytes Reply → Prog (Except Bytes Answer)) :
    Bool → Prog (Except Bytes Answer) → Prop where
  | command : Ready argv next true (.ask (.command argv) next)
  | connected {linked : Bool} {rest : Bool → Prog (Except Bytes Answer)}
      (h : Ready argv next linked (rest linked)) : Ready argv next linked (.ask .connected rest)
  | connect {linked : Bool} {host : Bytes} {port : ℤ}
      {rest : Option Bytes → Prog (Except Bytes Answer)} (h : Ready argv next true (rest none)) :
      Ready argv next linked (.ask (.connect host port) rest)
  | select {db : Bytes} {rest : Except Bytes Reply → Prog (Except Bytes Answer)}
      (h : Ready argv next true (rest (.ok (.simpleString (ascii "OK"))))) :
      Ready argv next true (.ask (.command [ascii "SELECT",db]) rest)

theorem Ready.asks {argv : List Bytes} {next : Except Bytes Reply → Prog (Except Bytes Answer)}
    {linked : Bool} {p : Prog (Except Bytes Answer)} (h : Ready argv next linked p) :
    ∃ q rest,p=.ask q rest := by
  cases h <;> exact ⟨_,_,rfl⟩

theorem ensureConnected_ready (log : PartitionLog) (linked : Bool) (argv : List Bytes)
    (f : ReplyObject → Log Answer) :
    Ready argv (fun r => (PartitionLog.outcome r >>= f).run) linked
      (log.ensureConnected >>= fun _ => PartitionLog.call argv >>= f).run := by
  cases linked with
  | true => exact Ready.connected Ready.command
  | false =>
    refine Ready.connected (Ready.connect ?_)
    change Ready argv _ true (ExceptT.run ((if log.db=0 then pure () else
      PartitionLog.select log.db) >>= fun _ => PartitionLog.call argv >>= f))
    split
    · exact Ready.command
    · exact Ready.select Ready.command

/-! ## What a command makes of the appends before it -/

def Call.adds (topic : Bytes) (partition : ℤ) : Call → List Record
  | append topic' partition' records =>
    if topic'=topic ∧ partition'=partition then records else []
  | _ => []

def appended (es : List Done) (topic : Bytes) (partition : ℤ) : List Record :=
  es.flatMap fun e => e.call.adds topic partition

def numbered : ℤ → List Record → List Record
  | _,[] => []
  | offset,r::rs => { r with offset := offset }::numbered (offset+1) rs

def Call.argv : Call → List Bytes
  | append topic partition records =>
    if records=[] then [ascii "LLEN",logKey topic partition]
    else ascii "RPUSH"::logKey topic partition::records.map encodeStoredRecord
  | read topic partition offset maxRecords =>
    [ascii "LRANGE",logKey topic partition,intDecimal offset,
      intDecimal (wrap64 (offset+maxRecords-1))]
  | highWatermark topic partition => [ascii "LLEN",logKey topic partition]

/-- The values of the types of the source, within what a link carries: a command that is not
sendable makes the server close the link. Missing fields hold no bytes. -/
def Call.Valid : Call → Prop
  | append topic partition records =>
    Request.Sendable (append topic partition records).argv ∧
      ∀ r∈records,FitsSigned 64 r.timestamp ∧ r.NullEmpty
  | read _ _ offset maxRecords => FitsSigned 64 offset ∧ FitsSigned 32 maxRecords
  | highWatermark _ _ => True

def Done.Right (before : List Done) (e : Done) : Prop :=
  match e.call with
  | .append topic partition _ | .highWatermark topic partition =>
    e.answer=.ok (.offset (appended before topic partition).length)
  | .read topic partition offset maxRecords =>
    0 ≤ offset → 1 ≤ maxRecords → (appended before topic partition).length ≤ 2^62 →
      e.answer=.ok (.records
        (((numbered 0 (appended before topic partition)).drop offset.toNat).take maxRecords.toNat))

def stored (rs : List Record) : Option Item :=
  if rs=[] then none else some (.list (rs.map encodeStoredRecord))

structure Agrees (s : Store) (es : List Done) : Prop where
  stored : ∀ topic partition,s (logKey topic partition)=stored (appended es topic partition)
  storable : ∀ topic partition,∀ r∈appended es topic partition,r.Storable

theorem appended_append (es : List Done) (e : Done) (topic : Bytes) (partition : ℤ) :
    appended (es++[e]) topic partition=
      appended es topic partition++e.call.adds topic partition := by
  rw [appended,flatMap_append,flatMap_singleton,appended]

variable {rs : List Record} {s : Store} {es : List Done} {key : Bytes} {call : Call}

theorem exec_llen (h : s key=stored rs) :
    s.exec [ascii "LLEN",key]=(.integer rs.length,s) := by
  rw [Store.exec,if_neg (by simp),Store.execFixed,if_pos rfl,Store.llen,h,stored]
  by_cases hrs : rs=[]
  · rw [if_pos hrs,hrs]
    rfl
  · rw [if_neg hrs]
    dsimp only
    rw [length_map]

theorem exec_rpush (h : s key=stored rs) {new : List Record} (hnew : new≠[]) :
    s.exec (ascii "RPUSH"::key::new.map encodeStoredRecord)=
      (.integer (rs.length+new.length : ℕ),
        s.put key (.list ((rs++new).map encodeStoredRecord))) := by
  rw [Store.exec,if_pos ⟨rfl,by simpa using hnew⟩,Store.rpush,h,stored]
  by_cases hrs : rs=[]
  · rw [if_pos hrs,hrs]
    simp
  · rw [if_neg hrs]
    simp

theorem exec_lrange (h : s key=stored rs) {m n : ℤ} (hm : FitsSigned 64 m) (hn : FitsSigned 64 n) :
    s.exec [ascii "LRANGE",key,intDecimal m,intDecimal n]=
      (.array ((Store.slice (rs.map encodeStoredRecord) m n).map .bulk),s) := by
  have hname : ascii "LRANGE"≠ascii "RPUSH" := by decide
  rw [Store.exec,if_neg (fun hn => hname hn.1),Store.execFixed,if_neg (by decide),if_pos rfl,
    Store.lrange,stringToInt64_intDecimal hm,stringToInt64_intDecimal hn,h,stored]
  by_cases hrs : rs=[]
  · rw [if_pos hrs,hrs]
    simp [Store.slice]
  · rw [if_neg hrs]

theorem slice_plain {es : List Bytes} {offset count : ℤ} (hlow : 0 ≤ offset) (hone : 1 ≤ count) :
    Store.slice es offset (offset+count-1)=(es.drop offset.toNat).take count.toNat := by
  rw [Store.slice,if_neg (by omega),if_neg (by omega),if_neg (by omega),
    show (offset+count-1-offset+1).toNat=count.toNat by omega]

theorem slice_window {es : List Bytes} {offset count : ℤ} (hlow : 0 ≤ offset)
    (hoffset : FitsSigned 64 offset) (hone : 1 ≤ count) (hcount : FitsSigned 32 count)
    (hsize : es.length ≤ 2^62) :
    Store.slice es offset (wrap64 (offset+count-1))=(es.drop offset.toNat).take count.toNat := by
  have hhigh : offset < 2^63 := hoffset.2
  have hcount' : count < 2^31 := hcount.2
  by_cases hlast : offset+count-1 < 2^63
  · have hwrap : wrap64 (offset+count-1)=offset+count-1 := wrap64_of_fits ⟨by omega,by omega⟩
    rw [hwrap,slice_plain hlow hone]
  · -- The last offset wraps to a negative one, which counts back from the end.
    have hwrap : wrap64 (offset+count-1)=offset+count-1-2^64 := by
      have hmod : toUnsigned 64 (offset+count-1)=(offset+count-1).toNat := by
        rw [toUnsigned,Int.emod_eq_of_lt (by omega) (by omega)]
      rw [wrap64,hmod,toSigned,if_neg (by omega),Int.toNat_of_nonneg (by omega)]
    have hnone : es.drop offset.toNat=[] := drop_eq_nil_iff.mpr (by omega)
    have hstart : ¬ offset < 0 := by omega
    have hstop : offset+count-1-2^64 < 0 := by omega
    rw [Store.slice,hwrap,hnone,take_nil]
    simp only [if_neg hstart,if_pos hstop]
    rw [if_pos (by omega)]

theorem decodeElements_stored (h : ∀ r∈rs,r.Storable) (offset : ℤ) :
    PartitionLog.decodeElements offset ((rs.map encodeStoredRecord).map .bulk)=
      .ok (numbered offset rs) := by
  induction rs generalizing offset with
  | nil => rfl
  | cons r rs ih =>
    have hone := decodeStoredRecord_encodeStoredRecord (h r mem_cons_self)
    have hrest := ih (fun x hx => h x (mem_cons_of_mem r hx)) (offset+1)
    have hstr : (({} : ReplyObject).assign (.bulk (encodeStoredRecord r))).str=
        encodeStoredRecord r := rfl
    rw [map_cons,map_cons,PartitionLog.decodeElements,hstr,hone,hrest]
    rfl

theorem numbered_length (offset : ℤ) (rs : List Record) : (numbered offset rs).length=rs.length := by
  induction rs generalizing offset with
  | nil => rfl
  | cons r rs ih => rw [numbered,length_cons,length_cons,ih]

theorem numbered_drop (offset : ℤ) (rs : List Record) (n : ℕ) :
    (numbered offset rs).drop n=numbered (offset+n) (rs.drop n) := by
  induction rs generalizing offset n with
  | nil => rw [drop_nil,numbered,numbered,drop_nil]
  | cons r rs ih =>
    cases n with
    | zero => rw [drop_zero,drop_zero,Nat.cast_zero,add_zero]
    | succ n =>
      rw [numbered,drop_succ_cons,drop_succ_cons,ih]
      congr 1
      push_cast
      omega

theorem numbered_take (offset : ℤ) (rs : List Record) (n : ℕ) :
    (numbered offset rs).take n=numbered offset (rs.take n) := by
  induction rs generalizing offset n with
  | nil => rw [take_nil,numbered,take_nil]
  | cons r rs ih =>
    cases n with
    | zero => rw [take_zero,take_zero,numbered]
    | succ n => rw [numbered,take_succ_cons,take_succ_cons,numbered,ih]

/-! ## Calls -/

def Call.next : Call → Except Bytes Reply → Prog (Except Bytes Answer)
  | append _ _ records => fun r => (PartitionLog.outcome r >>= fun reply => (pure (.offset
      (if records=[] then reply.integer else reply.integer-records.length)) : Log Answer)).run
  | read _ _ offset _ => fun r => (PartitionLog.outcome r >>= fun reply =>
      (PartitionLog.decoded offset reply >>= fun records => pure (.records records) :
        Log Answer)).run
  | highWatermark _ _ => fun r => (PartitionLog.outcome r >>= fun reply =>
      (pure (.offset reply.integer) : Log Answer)).run

def Call.Void : Call → Prop
  | read _ _ _ maxRecords => maxRecords ≤ 0
  | _ => False

theorem program_void (h : call.Void) (log : PartitionLog) :
    call.program log=.done (.ok (.records [])) := by
  cases call with
  | append => exact absurd h id
  | highWatermark => exact absurd h id
  | read topic partition offset maxRecords =>
    have hmax : maxRecords ≤ 0 := h
    rw [Call.program,PartitionLog.read,if_pos hmax]
    rfl

theorem program_ready (h : ¬ call.Void) (log : PartitionLog) (linked : Bool) :
    Ready call.argv call.next linked (call.program log) := by
  cases call with
  | append topic partition records =>
    by_cases hrs : records=[]
    · have hready := ensureConnected_ready log linked [ascii "LLEN",logKey topic partition]
        fun reply => pure (.offset reply.integer)
      simpa only [Call.program,PartitionLog.append,PartitionLog.highWatermark,Call.argv,Call.next,
        if_pos hrs,bind_assoc,pure_bind] using hready
    · have hready := ensureConnected_ready log linked
        (ascii "RPUSH"::logKey topic partition::records.map encodeStoredRecord)
        fun reply => pure (.offset (reply.integer-records.length))
      simpa only [Call.program,PartitionLog.append,Call.argv,Call.next,if_neg hrs,bind_assoc,
        pure_bind] using hready
  | read topic partition offset maxRecords =>
    have hmax : ¬ maxRecords ≤ 0 := h
    have hready := ensureConnected_ready log linked
      (Call.read topic partition offset maxRecords).argv fun reply =>
        PartitionLog.decoded offset reply >>= fun records => pure (.records records)
    simpa only [Call.program,PartitionLog.read,Call.argv,Call.next,if_neg hmax,bind_assoc,
      pure_bind] using hready
  | highWatermark topic partition =>
    have hready := ensureConnected_ready log linked [ascii "LLEN",logKey topic partition]
      fun reply => pure (.offset reply.integer)
    simpa only [Call.program,PartitionLog.highWatermark,Call.argv,Call.next,bind_assoc,
      pure_bind] using hready

theorem Agrees.same (h : Agrees s es) {e : Done}
    (hadds : ∀ topic partition,e.call.adds topic partition=[]) : Agrees s (es++[e]) where
  stored topic partition := by
    rw [appended_append,hadds,append_nil]
    exact h.stored topic partition
  storable topic partition := by
    rw [appended_append,hadds,append_nil]
    exact h.storable topic partition

theorem Agrees.append (h : Agrees s es) {topic : Bytes} {partition : ℤ} {records : List Record}
    (hrs : records≠[]) (hstorable : ∀ r∈records,r.Storable) (answer : Except Bytes Answer) :
    Agrees (s.put (logKey topic partition) (.list
      ((appended es topic partition++records).map encodeStoredRecord)))
      (es++[⟨.append topic partition records,answer⟩]) where
  stored topic' partition' := by
    rw [appended_append,Call.adds]
    by_cases hkey : logKey topic' partition'=logKey topic partition
    · obtain ⟨rfl,rfl⟩ := logKey_inj hkey
      rw [Store.put_self,if_pos ⟨rfl,rfl⟩,Kafka.stored,
        if_neg (append_ne_nil_of_right_ne_nil _ hrs)]
    · rw [Store.put_of_ne hkey,if_neg (by rintro ⟨rfl,rfl⟩; exact hkey rfl),append_nil]
      exact h.stored topic' partition'
  storable topic' partition' r hr := by
    rw [appended_append,mem_append] at hr
    cases hr with
    | inl hr => exact h.storable topic' partition' r hr
    | inr hr =>
      rw [Call.adds] at hr
      split at hr
      · exact hstorable r hr
      · exact absurd hr not_mem_nil

theorem Call.Valid.storable {topic : Bytes} {partition : ℤ} {records : List Record}
    (h : (Call.append topic partition records).Valid) : ∀ r∈records,r.Storable := by
  intro r hr
  have hrs : records≠[] := ne_nil_of_mem hr
  have hsize := h.1.sizes (encodeStoredRecord r) (by
    rw [Call.argv,if_neg hrs]
    exact mem_cons_of_mem _ (mem_cons_of_mem _ (mem_map_of_mem hr)))
  exact ⟨(h.2 r hr).1,(h.2 r hr).2,by omega⟩

theorem Call.executed (hvalid : call.Valid) (hvoid : ¬ call.Void) (h : Agrees s es) :
    ∃ a,call.next (.ok (s.exec call.argv).1)=.done a ∧ Done.Right es ⟨call,a⟩ ∧
      Agrees (s.exec call.argv).2 (es++[⟨call,a⟩]) := by
  cases call with
  | append topic partition records =>
    by_cases hrs : records=[]
    · rw [Call.argv,if_pos hrs,exec_llen (h.stored topic partition)]
      refine ⟨.ok (.offset (appended es topic partition).length),?_,rfl,h.same ?_⟩
      · simp only [Call.next,if_pos hrs]
        rfl
      · intro topic' partition'
        rw [Call.adds,hrs,ite_self]
    · rw [Call.argv,if_neg hrs,exec_rpush (h.stored topic partition) hrs]
      refine ⟨.ok (.offset (appended es topic partition).length),?_,rfl,
        h.append hrs hvalid.storable _⟩
      simp only [Call.next,if_neg hrs]
      have hbase : ((appended es topic partition).length+records.length : ℕ)-
          (records.length : ℤ)=(appended es topic partition).length := by omega
      exact congrArg (fun n : ℤ => (Asking.done (.ok (.offset n)) : Prog (Except Bytes Answer))) hbase
  | highWatermark topic partition =>
    rw [Call.argv,exec_llen (h.stored topic partition)]
    exact ⟨.ok (.offset (appended es topic partition).length),rfl,rfl,h.same fun _ _ => rfl⟩
  | read topic partition offset maxRecords =>
    have hone : 1 ≤ maxRecords := by
      have hmax : ¬ maxRecords ≤ 0 := hvoid
      omega
    obtain ⟨hoffset,hmax⟩ : FitsSigned 64 offset ∧ FitsSigned 32 maxRecords := hvalid
    have hlast : FitsSigned 64 (wrap64 (offset+maxRecords-1)) :=
      toSigned_fits (by decide) (toUnsigned_lt 64 _)
    rw [Call.argv,exec_lrange (h.stored topic partition) hoffset hlast]
    generalize hslice : Store.slice ((appended es topic partition).map encodeStoredRecord) offset
      (wrap64 (offset+maxRecords-1))=elements
    refine ⟨(PartitionLog.decodeElements offset (elements.map .bulk)).map .records,?_,?_,
      h.same fun _ _ => rfl⟩
    · change (PartitionLog.decoded offset ⟨_,_,_,elements.map .bulk⟩ >>= _).run=_
      rw [PartitionLog.decoded]
      dsimp only
      cases PartitionLog.decodeElements offset (elements.map .bulk) with
      | ok records => rfl
      | error e => rfl
    · intro hlow _ hsize
      rw [slice_window hlow hoffset hone hmax (by rw [length_map]; exact hsize),
        ← map_drop,← map_take] at hslice
      have hstorable : ∀ r∈((appended es topic partition).drop offset.toNat).take
          maxRecords.toNat,r.Storable := fun r hr =>
        h.storable topic partition r (mem_of_mem_drop (mem_of_mem_take hr))
      dsimp only
      rw [← hslice,decodeElements_stored hstorable,numbered_drop,numbered_take,zero_add,
        Int.toNat_of_nonneg hlow]
      rfl

/-! ## Runs -/

def Act.Valid : Act → Prop
  | start _ call => call.Valid
  | proceed _ => True

namespace Cluster

def Prepared (c : Cluster) (i : ℕ) : Prop :=
  ∀ call p,(c.brokers i).work=some (call,p) →
    call.Valid ∧ ¬ call.Void ∧ Ready call.argv call.next (c.brokers i).linked p

structure Consistent (c : Cluster) : Prop where
  agrees : Agrees c.store c.finished
  right : ∀ before e after,c.finished=before++e::after → e.Right before
  prepared : ∀ i,c.Prepared i

theorem Fresh.consistent {c : Cluster} (h : c.Fresh) : c.Consistent where
  agrees :=
    { stored := fun topic partition => by
        rw [h.finished]
        exact h.store topic partition
      storable := fun topic partition r hr => by
        rw [h.finished] at hr
        exact absurd hr not_mem_nil }
  right before e after hsplit := by
    rw [h.finished] at hsplit
    exact absurd hsplit.symm (by simp)
  prepared i call p hwork := by
    rw [h.idle i] at hwork
    exact absurd hwork (by simp)

theorem right_append {es : List Done} {e : Done}
    (h : ∀ before x after,es=before++x::after → x.Right before) (he : e.Right es) :
    ∀ before x after,es++[e]=before++x::after → x.Right before := by
  intro before x after hsplit
  cases eq_nil_or_concat after with
  | inl hnil =>
    rw [hnil] at hsplit
    obtain ⟨hes,hx⟩ := append_inj' hsplit rfl
    rw [← hes,← (List.cons.inj hx).1]
    exact he
  | inr hmore =>
    obtain ⟨rest,last,hlast⟩ := hmore
    rw [hlast,concat_eq_append,← cons_append,← append_assoc] at hsplit
    exact h before x rest (append_inj' hsplit rfl).1

section Step

variable {c : Cluster} {i : ℕ} {call : Call}

theorem Prepared.congr {c' : Cluster} {j : ℕ} (h : c.Prepared j)
    (hsame : c'.brokers j=c.brokers j) : c'.Prepared j := by
  intro call p hwork
  rw [hsame] at hwork ⊢
  exact h call p hwork

theorem finishes {a : Except Bytes Answer} (hagrees : Agrees c.store (c.finished++[⟨call,a⟩]))
    (hright : ∀ before e after,c.finished=before++e::after → e.Right before)
    (he : Done.Right c.finished ⟨call,a⟩) (hothers : ∀ j,j≠i → c.Prepared j) :
    (c.settle i call (.done a)).Consistent where
  agrees := hagrees
  right := right_append hright he
  prepared j := by
    by_cases hj : j=i
    · intro call' p hwork
      rw [hj] at hwork
      simp [settle] at hwork
    · exact (hothers j hj).congr (settle_others c i call _ hj)

theorem onItsWay {p : Prog (Except Bytes Answer)} (hagrees : Agrees c.store c.finished)
    (hright : ∀ before e after,c.finished=before++e::after → e.Right before)
    (hothers : ∀ j,j≠i → c.Prepared j) (hvalid : call.Valid) (hvoid : ¬ call.Void)
    (hready : Ready call.argv call.next (c.brokers i).linked p) :
    (c.settle i call p).Consistent := by
  obtain ⟨q,next,hp⟩ := hready.asks
  have hwork : ((c.settle i call p).brokers i).work=some (call,p) := by
    rw [hp]
    simp [settle]
  have hfinished : (c.settle i call p).finished=c.finished := by
    rw [hp]
    rfl
  refine ⟨by rwa [settle_store,hfinished],by rwa [hfinished],?_⟩
  intro j
  by_cases hj : j=i
  · intro call' p' hwork'
    rw [hj] at hwork' ⊢
    rw [hwork] at hwork'
    cases hwork'
    rw [settle_linked]
    exact ⟨hvalid,hvoid,hready⟩
  · exact (hothers j hj).congr (settle_others c i call _ hj)

theorem used_consistent (h : c.Consistent) {q : Ask} {next : q.Answer → Prog (Except Bytes Answer)}
    (hwork : (c.brokers i).work=some (call,.ask q next)) :
    ((c.used i (Session.answer q (c.session i)).2).settle i call
      (next (Session.answer q (c.session i)).1)).Consistent := by
  obtain ⟨hvalid,hvoid,hready⟩ := h.prepared i call _ hwork
  have hothers : ∀ (s : Session) (j : ℕ),j≠i → (c.used i s).Prepared j := fun s j hj =>
    (h.prepared j).congr (used_others c i s hj)
  have hcommand : ∀ argv,(c.brokers i).linked=true → Session.answer (.command argv) (c.session i)=
      (.ok (c.store.exec argv).1,
        { c.session i with store := (c.store.exec argv).2, turns := (c.session i).turns.tail }) := by
    intro argv hlinked
    change Session.command (c.session i) argv=_
    rw [Session.command,session,hlinked]
    rfl
  generalize hl : (c.brokers i).linked=linked at hready
  cases hready with
  | command =>
    obtain ⟨a,hnext,hright,hagrees⟩ := Call.executed hvalid hvoid h.agrees
    rw [hcommand _ hl,hnext]
    exact finishes hagrees h.right hright (hothers _)
  | connected hrest =>
    rw [← hl] at hrest
    refine onItsWay h.agrees h.right (hothers _) hvalid hvoid ?_
    rw [used_linked]
    exact hrest
  | connect hrest =>
    refine onItsWay h.agrees h.right (hothers _) hvalid hvoid ?_
    rw [used_linked]
    exact hrest
  | select hrest =>
    rw [hcommand _ hl]
    refine onItsWay h.agrees h.right (hothers _) hvalid hvoid ?_
    rw [used_linked]
    change Ready _ _ (c.brokers i).linked _
    rw [hl]
    exact hrest

theorem step_consistent (h : c.Consistent) {act : Act} (hact : act.Valid) :
    (c.step act).Consistent := by
  cases act with
  | start i call =>
    rw [step]
    split
    · by_cases hvoid : call.Void
      · rw [program_void hvoid]
        refine finishes (h.agrees.same ?_) h.right ?_ fun j _ => h.prepared j
        · intro topic partition
          cases call with
          | append => exact absurd hvoid id
          | highWatermark => rfl
          | read => rfl
        · cases call with
          | append => exact absurd hvoid id
          | highWatermark => exact absurd hvoid id
          | read topic partition offset maxRecords =>
            intro _ hone
            have hmax : maxRecords ≤ 0 := hvoid
            omega
      · exact onItsWay h.agrees h.right (fun j _ => h.prepared j) hact hvoid
          (program_ready hvoid _ _)
    · exact h
  | proceed i =>
    rw [step]
    split
    · rename_i call q next hwork
      exact used_consistent h hwork
    · exact h

theorem run_consistent (h : c.Consistent) {acts : List Act} (hacts : ∀ act∈acts,act.Valid) :
    (c.run acts).Consistent := by
  induction acts generalizing c with
  | nil => exact h
  | cons act acts ih =>
    exact ih (step_consistent h (hacts act mem_cons_self))
      fun x hx => hacts x (mem_cons_of_mem act hx)

end Step

/-! ## What the calls can rely on -/

/-- The partitions are logs: the calls that are over have the answers of one. -/
structure Sound (c : Cluster) : Prop where
  /-- A partition holds what was appended to it and to no other, numbered from zero. -/
  apart : ∀ topic partition,
    c.log topic partition=some (numbered 0 (appended c.finished topic partition))
  /-- An append gets the offset from which its records are found in order. -/
  placed : ∀ e∈c.finished,∀ topic partition records,e.call=.append topic partition records →
    records≠[] → ∃ (b : ℕ) (log : List Record),e.answer=.ok (.offset b) ∧
      c.log topic partition=some log ∧ (log.drop b).take records.length=numbered b records
  disjoint : ∀ before e middle e' after,c.finished=before++e::(middle++e'::after) →
    ∀ topic partition (records records' : List Record) (b b' : ℤ),
      e.call=.append topic partition records →
      e'.call=.append topic partition records' → e.answer=.ok (.offset b) →
      e'.answer=.ok (.offset b') → b+records.length ≤ b'
  covered : ∀ topic partition log,c.log topic partition=some log → ∀ o : ℕ,o < log.length →
    ∃ e∈c.finished,∃ (records : List Record) (b : ℤ),e.call=.append topic partition records ∧
      e.answer=.ok (.offset b) ∧ b ≤ o ∧ o < b+records.length
  /-- A read gets the records between its offsets as far as the log goes, with their offsets. -/
  reads : ∀ before e after,c.finished=before++e::after → ∀ topic partition offset maxRecords,
    e.call=.read topic partition offset maxRecords → 0 ≤ offset → 1 ≤ maxRecords →
      (appended before topic partition).length ≤ 2^62 →
      e.answer=.ok (.records
        (((numbered 0 (appended before topic partition)).drop offset.toNat).take maxRecords.toNat))
  marks : ∀ before e after,c.finished=before++e::after → ∀ topic partition,
    e.call=.highWatermark topic partition →
      e.answer=.ok (.offset (appended before topic partition).length)

theorem Consistent.base {c : Cluster} (h : c.Consistent) {before after : List Done} {e : Done}
    (hsplit : c.finished=before++e::after) {topic : Bytes} {partition : ℤ} {records : List Record}
    (hcall : e.call=.append topic partition records) :
    e.answer=.ok (.offset (appended before topic partition).length) := by
  have hright := h.right before e after hsplit
  rwa [Done.Right,hcall] at hright

theorem appended_split (before : List Done) (e : Done) (after : List Done) (topic : Bytes)
    (partition : ℤ) :
    appended (before++e::after) topic partition=
      appended before topic partition++
        (e.call.adds topic partition++appended after topic partition) := by
  rw [appended,flatMap_append,flatMap_cons,appended,appended]

theorem adds_append {e : Done} {topic : Bytes} {partition : ℤ} {records : List Record}
    (hcall : e.call=.append topic partition records) : e.call.adds topic partition=records := by
  rw [hcall,Call.adds,if_pos ⟨rfl,rfl⟩]

theorem covered_of_right {es : List Done}
    (h : ∀ before e after,es=before++e::after → e.Right before) (topic : Bytes) (partition : ℤ)
    {o : ℕ} (ho : o < (appended es topic partition).length) :
    ∃ e∈es,∃ records b,e.call=.append topic partition records ∧ e.answer=.ok (.offset b) ∧
      b ≤ o ∧ o < b+records.length := by
  induction es using List.reverseRecOn with
  | nil => exact absurd ho (Nat.not_lt_zero o)
  | append_singleton es e ih =>
    by_cases hold : o < (appended es topic partition).length
    · obtain ⟨x,hx,hrest⟩ := ih (fun before x after hsplit => h before x (after++[e]) (by
        rw [hsplit,append_assoc,cons_append])) hold
      exact ⟨x,mem_append_left _ hx,hrest⟩
    · have hright := h es e [] rfl
      rw [appended_append,length_append] at ho
      cases hcall : e.call with
      | read =>
        rw [hcall] at ho
        change o < (appended es topic partition).length+0 at ho
        omega
      | highWatermark =>
        rw [hcall] at ho
        change o < (appended es topic partition).length+0 at ho
        omega
      | append topic' partition' records =>
        rw [hcall,Call.adds] at ho
        split at ho
        · rename_i hsame
          obtain ⟨rfl,rfl⟩ := hsame
          rw [Done.Right,hcall] at hright
          exact ⟨e,mem_append_right _ mem_cons_self,records,_,hcall,hright,by omega,
            by omega⟩
        · rw [length_nil] at ho
          omega

theorem Consistent.apart {c : Cluster} (h : c.Consistent) (topic : Bytes) (partition : ℤ) :
    c.log topic partition=some (numbered 0 (appended c.finished topic partition)) := by
  have hdecoded := decodeElements_stored (h.agrees.storable topic partition) 0
  rw [log,h.agrees.stored topic partition,stored]
  by_cases hnil : appended c.finished topic partition=[]
  · rw [if_pos hnil,hnil]
    rfl
  · rw [if_neg hnil]
    dsimp only
    rw [hdecoded]
    rfl

/-- Whatever the brokers do at the same time, the partitions are logs. -/
theorem partition_log {c : Cluster} (hfresh : c.Fresh) {acts : List Act}
    (hacts : ∀ act∈acts,act.Valid) : (c.run acts).Sound := by
  have h := run_consistent hfresh.consistent hacts
  generalize c.run acts=c at h
  refine ⟨h.apart,?_,?_,?_,?_,?_⟩
  · intro e he topic partition records hcall _
    obtain ⟨before,after,hsplit⟩ := append_of_mem he
    refine ⟨_,_,h.base hsplit hcall,h.apart topic partition,?_⟩
    rw [hsplit,appended_split,adds_append hcall,numbered_drop,drop_left' rfl,numbered_take,
      take_left' rfl,zero_add]
  · intro before e middle e' after hsplit topic partition records records' b b' hcall hcall' hb hb'
    have hfirst := h.base hsplit hcall
    have hsplit' : c.finished=(before++e::middle)++e'::after := by
      rw [hsplit,append_assoc,cons_append]
    have hsecond := h.base hsplit' hcall'
    rw [appended_split,adds_append hcall,length_append,length_append] at hsecond
    rw [hfirst] at hb
    rw [hsecond] at hb'
    cases hb
    cases hb'
    push_cast
    omega
  · intro topic partition log hlog o ho
    rw [h.apart topic partition] at hlog
    cases hlog
    rw [numbered_length] at ho
    exact covered_of_right h.right topic partition ho
  · intro before e after hsplit topic partition offset maxRecords hcall
    have hright := h.right before e after hsplit
    rwa [Done.Right,hcall] at hright
  · intro before e after hsplit topic partition hcall
    have hright := h.right before e after hsplit
    rwa [Done.Right,hcall] at hright

/-! ## Two brokers -/

/-- Brokers on one database of which only the first is connected yet. -/
def pair : Cluster :=
  { store := Store.empty
    brokers := fun i => { log := { db := 1 }, linked := i=0, work := none }
    finished := [] }

theorem pair_fresh : pair.Fresh := ⟨fun _ _ => rfl,fun _ => rfl,rfl⟩

/-- Both append to one partition, the second while the first is on its way, and one reads. -/
def pairActs (r : Record) : List Act :=
  [.start 0 (.append (ascii "t") 0 [r]),.proceed 0,.start 1 (.append (ascii "t") 0 [r,r]),
    .proceed 1,.proceed 1,.proceed 1,.proceed 1,.proceed 0,.start 1 (.read (ascii "t") 0 1 9),
    .proceed 1,.proceed 1]

theorem partition_log_pair : (pair.run (pairActs tombstone)).Sound :=
  partition_log pair_fresh (by
    have hvalid : ∀ rs : List Record,(∀ r∈rs,r=tombstone) →
        Request.Sendable (Call.append (ascii "t") 0 rs).argv →
        (Call.append (ascii "t") 0 rs).Valid := fun rs hrs hsend => ⟨hsend,fun r hr => by
      rw [hrs r hr]
      exact ⟨by decide,tombstone_sound.null⟩⟩
    intro act hact
    simp only [pairActs,mem_cons,not_mem_nil,or_false] at hact
    rcases hact with rfl | rfl | rfl | rfl | rfl | rfl | rfl | rfl | rfl | rfl | rfl
    · exact hvalid _ (by simp) ⟨by decide +kernel,by decide +kernel,by decide +kernel⟩
    · trivial
    · exact hvalid _ (by simp) ⟨by decide +kernel,by decide +kernel,by decide +kernel⟩
    all_goals trivial)

def keyless : Record := { key := ascii "k", keyNull := true, value := ascii "v", valueNull := false }

/-- It is not read back as it was appended: the bytes of the missing key are not stored. -/
theorem keyless_lost :
    (pair.run (pairActs keyless)).finished.map Done.answer=
        [.ok (.offset 0),.ok (.offset 2),
          .ok (.records [{ keyless with offset := 1, key := [] },
            { keyless with offset := 2, key := [] }])] ∧
      keyless.key≠[] := by
  decide +kernel

end Cluster

end Mnemos.Kafka
