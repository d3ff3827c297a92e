import Mathlib.Data.Finset.Max
import Mathlib.Data.List.Perm.Basic
import Mnemos.StringCommands

/-!
# List, hash and set commands

The handlers of `list_commands.cpp`, `hash_commands.cpp` and
`set_commands.cpp`.
-/

namespace Mnemos.Commands

open Cmd

def pushAll (atFront : Bool) (l : ListValue) (items : List Bytes) : ListValue :=
  items.foldl (fun l item => if atFront then l.pushFront item else l.pushBack item) l

def pushGeneric (atFront requireExisting : Bool) (argv : List Bytes) : Cmd Response := do
  let key := arg argv 1
  let found ←
    if requireExisting then lookupTyped key Value.list
    else lookupOrCreate key Value.list .makeList
  match found with
  | .wrongType => pure .wrongType
  | .missing => pure (.integer 0)
  | .found l =>
    let pushed := pushAll atFront l (argv.drop 2)
    store key (.list pushed)
    markDirty (argv.length-2)
    notify Notify.kList (if atFront then "lpush" else "rpush") key
    pure (.integer pushed.size)

def popEnd (fromFront : Bool) (l : ListValue) : Option Bytes×ListValue :=
  if fromFront then l.popFront else l.popBack

def popLoop (fromFront : Bool) : ℕ → ListValue → List Bytes×ListValue
  | 0,l => ([],l)
  | n+1,l =>
    match popEnd fromFront l with
    | (none,l) => ([],l)
    | (some item,l) => (item::(popLoop fromFront n l).1,(popLoop fromFront n l).2)

def parsePopCount : List Bytes → Except Response (Option ℕ)
  | [] => .ok none
  | text::_ =>
    match stringToInt64 text with
    | none => .error .notAnInteger
    | some count =>
      if count < 0 then .error (.err "ERR value is out of range, must be positive")
      else .ok (some count.toNat)

def popReply (count : Option ℕ) (popped : List Bytes) : Response :=
  match count,popped with
  | some _,popped => .tokens (bulkArray popped)
  | none,[] => .nullBulk
  | none,item::_ => .bulk item

def popGeneric (fromFront : Bool) (argv : List Bytes) : Cmd Response := do
  let key := arg argv 1
  let found ← lookupTyped key Value.list
  match found with
  | .wrongType => pure .wrongType
  | .missing =>
    match parsePopCount (argv.drop 2) with
    | .error e => pure e
    | .ok none => pure .nullBulk
    | .ok (some _) => pure (.token .nullArray)
  | .found l =>
    match parsePopCount (argv.drop 2) with
    | .error e => pure e
    | .ok count =>
      -- a list that has fewer elements than asked for is popped until it is empty
      let popped := popLoop fromFront (count.getD 1) l
      store key (.list popped.2)
      if popped.1≠[] then
        markDirty popped.1.length
        notify Notify.kList (if fromFront then "lpop" else "rpop") key
      deleteIfEmpty key (.list popped.2)
      pure (popReply count popped.1)

def deleteSource (source : Bytes) : Option Value → Cmd Unit
  | none => pure ()
  | some v => deleteIfEmpty source v.data

def moveGeneric (source destination : Bytes) (fromFront toFront : Bool) : Cmd Response := do
  let src ← lookupTyped source Value.list
  match src with
  | .wrongType => pure .wrongType
  | .missing => pure .nullBulk
  | .found l =>
    let existing ← lookupTyped destination Value.list
    match existing with
    | .wrongType => pure .wrongType
    | .missing | .found _ =>
      match popEnd fromFront l with
      | (none,_) => pure .nullBulk
      | (some item,left) =>
        store source (.list left)
        let dst ← lookupOrCreate destination Value.list .makeList
        match dst with
        | .wrongType | .missing => pure .wrongType
        | .found d =>
          store destination (.list (if toFront then d.pushFront item else d.pushBack item))
          notify Notify.kList (if toFront then "lpush" else "rpush") destination
          notify Notify.kList (if fromFront then "lpop" else "rpop") source
          let srcNow ← lookupWrite source
          deleteSource source srcNow
          markDirty 1
          pure (.bulk item)

def lpush (argv : List Bytes) : Cmd Response := pushGeneric true false argv
def rpush (argv : List Bytes) : Cmd Response := pushGeneric false false argv
def lpushx (argv : List Bytes) : Cmd Response := pushGeneric true true argv
def rpushx (argv : List Bytes) : Cmd Response := pushGeneric false true argv
def lpop (argv : List Bytes) : Cmd Response := popGeneric true argv
def rpop (argv : List Bytes) : Cmd Response := popGeneric false argv

def readTyped {A : Type} (key : Bytes) (typed : Value → Option A) (missing : Response)
    (answer : A → Response) : Cmd Response := do
  let found ← lookupTypedRead key typed
  match found with
  | .wrongType => pure .wrongType
  | .missing => pure missing
  | .found a => pure (answer a)

def llen (argv : List Bytes) : Cmd Response :=
  readTyped (arg argv 1) Value.list (.integer 0) fun l => .integer l.size

def lrange (argv : List Bytes) : Cmd Response :=
  match stringToInt64 (arg argv 2),stringToInt64 (arg argv 3) with
  | some start,some stop =>
    readTyped (arg argv 1) Value.list (.token (.arrayHeader 0)) fun l =>
      .tokens (bulkArray (l.range start stop))
  | _,_ => pure .notAnInteger

def bulkOrNull : Option Bytes → Response
  | some s => .bulk s
  | none => .nullBulk

def lindex (argv : List Bytes) : Cmd Response :=
  match stringToInt64 (arg argv 2) with
  | none => pure .notAnInteger
  | some index => readTyped (arg argv 1) Value.list .nullBulk fun l => bulkOrNull (l.at_ index)

def lset (argv : List Bytes) : Cmd Response :=
  let key := arg argv 1
  match stringToInt64 (arg argv 2) with
  | none => pure .notAnInteger
  | some index => do
    let found ← lookupTyped key Value.list
    match found with
    | .wrongType => pure .wrongType
    | .missing => pure (.err "ERR no such key")
    | .found l =>
      if !(l.set index (arg argv 3)).1 then pure (.err "ERR index out of range")
      else
        store key (.list (l.set index (arg argv 3)).2)
        markDirty 1
        notify Notify.kList "lset" key
        pure .ok

def lrem (argv : List Bytes) : Cmd Response :=
  let key := arg argv 1
  match stringToInt64 (arg argv 2) with
  | none => pure .notAnInteger
  | some count => do
    let found ← lookupTyped key Value.list
    match found with
    | .wrongType => pure .wrongType
    | .missing => pure (.integer 0)
    | .found l =>
      let removed := l.removeValue (arg argv 3) count
      store key (.list removed.2)
      if 0 < removed.1 then
        markDirty removed.1
        notify Notify.kList "lrem" key
      deleteIfEmpty key (.list removed.2)
      pure (.integer removed.1)

def ltrim (argv : List Bytes) : Cmd Response :=
  let key := arg argv 1
  match stringToInt64 (arg argv 2),stringToInt64 (arg argv 3) with
  | some start,some stop => do
    let found ← lookupTyped key Value.list
    match found with
    | .wrongType => pure .wrongType
    | .missing => pure .ok
    | .found l =>
      store key (.list (l.trim start stop))
      markDirty 1
      notify Notify.kList "ltrim" key
      deleteIfEmpty key (.list (l.trim start stop))
      pure .ok
  | _,_ => pure .notAnInteger

structure LposOptions where
  rank : ℤ := 1
  count : ℤ := -1

def rankRefused : Response :=
  .err ("ERR RANK can't be zero. Use 1 to start searching from the first matching element in the "++
    "head of the list or a negative rank to start searching from the tail. A rank larger than the "++
    "list size is also acceptable.")

def parseLposOptions : List Bytes → LposOptions → Except Response LposOptions
  | [],o => .ok o
  | [_],_ => .error .syntaxError
  | token::value::rest,o =>
    if isWord token "RANK" then
      match stringToInt64 value with
      | none => .error rankRefused
      | some rank =>
        if rank=0 then .error rankRefused else parseLposOptions rest { o with rank := rank }
    else if isWord token "COUNT" then
      match stringToInt64 value with
      | none => .error (.err "ERR COUNT can't be negative")
      | some count =>
        if count < 0 then .error (.err "ERR COUNT can't be negative")
        else parseLposOptions rest { o with count := count }
    else .error .syntaxError

/-- The search of `lpos` over indexed items: matches still to skip, matches still wanted. -/
def lposLoop (element : Bytes) : List (ℕ×Bytes) → ℕ → ℕ → List ℕ
  | [],_,_ => []
  | (i,item)::items,skip,wanted =>
    if item≠element then lposLoop element items skip wanted
    else if 0 < skip then lposLoop element items (skip-1) wanted
    else if wanted ≤ 1 then [i]
    else i::lposLoop element items 0 (wanted-1)

/-- The matches of `lpos`. The negation of the smallest rank wraps to itself, which is below
every number of matches skipped. -/
def lposMatches (items : List Bytes) (element : Bytes) (o : LposOptions) : List ℕ :=
  let indexed := (List.range items.length).zip items
  let wanted := if o.count < 0 then 1 else if o.count=0 then items.length else o.count.toNat
  if 0 < o.rank then lposLoop element indexed (o.rank.toNat-1) wanted
  else lposLoop element indexed.reverse ((int64 (-o.rank)).toNat-1) wanted

def lposReply (o : LposOptions) (ms : List ℕ) : Response :=
  if 0 ≤ o.count then .tokens (.arrayHeader ms.length::ms.map fun m => .integer m)
  else
    match ms with
    | [] => .nullBulk
    | m::_ => .integer m

/-- The key is looked up before the options are parsed. -/
def lpos (argv : List Bytes) : Cmd Response := do
  let found ← lookupTypedRead (arg argv 1) Value.list
  match found with
  | .wrongType => pure .wrongType
  | .missing =>
    match parseLposOptions (argv.drop 3) {} with
    | .error e => pure e
    | .ok o => pure (if 0 ≤ o.count then .token (.arrayHeader 0) else .nullBulk)
  | .found l =>
    match parseLposOptions (argv.drop 3) {} with
    | .error e => pure e
    | .ok o => pure (lposReply o (lposMatches (l.range 0 (-1)) (arg argv 2) o))

def rpoplpush (argv : List Bytes) : Cmd Response :=
  moveGeneric (arg argv 1) (arg argv 2) false true

def lmove (argv : List Bytes) : Cmd Response :=
  let fromFront := isWord (arg argv 3) "LEFT"
  let toFront := isWord (arg argv 4) "LEFT"
  if (!fromFront && !isWord (arg argv 3) "RIGHT") || (!toFront && !isWord (arg argv 4) "RIGHT") then
    pure .syntaxError
  else moveGeneric (arg argv 1) (arg argv 2) fromFront toFront

/-! ## Hash commands -/

def setFields : List Bytes → HashValue → ℕ×HashValue
  | field::value::rest,h =>
    let r := setFields rest (h.set field value).2
    (r.1+(if (h.set field value).1 then 1 else 0),r.2)
  | _,h => (0,h)

/-- `HSET` and `HMSET`, which differ in their name and their reply. -/
def hsetGeneric (name : String) (reply : ℕ → Response) (argv : List Bytes) : Cmd Response :=
  let key := arg argv 1
  if (argv.length-2)%2≠0 then pure (.wrongArgs name)
  else do
    let found ← lookupOrCreate key Value.hash .makeHash
    match found with
    | .wrongType | .missing => pure .wrongType
    | .found h =>
      let r := setFields (argv.drop 2) h
      store key (.hash r.2)
      markDirty ((argv.length-2)/2)
      notify Notify.kHash "hset" key
      pure (reply r.1)

def hset (argv : List Bytes) : Cmd Response := hsetGeneric "hset" (fun added => .integer added) argv

def hmset (argv : List Bytes) : Cmd Response := hsetGeneric "hmset" (fun _ => .ok) argv

def hsetnx (argv : List Bytes) : Cmd Response := do
  let key := arg argv 1
  let found ← lookupOrCreate key Value.hash .makeHash
  match found with
  | .wrongType | .missing => pure .wrongType
  | .found h =>
    if h.contains (arg argv 2) then
      deleteIfEmpty key (.hash h)
      pure (.integer 0)
    else
      store key (.hash (h.set (arg argv 2) (arg argv 3)).2)
      markDirty 1
      notify Notify.kHash "hset" key
      pure (.integer 1)

def hget (argv : List Bytes) : Cmd Response :=
  readTyped (arg argv 1) Value.hash .nullBulk fun h => bulkOrNull (h.get (arg argv 2))

def bulkToken : Option Bytes → Token
  | some s => .bulk s
  | none => .nullBulk

def hmget (argv : List Bytes) : Cmd Response :=
  let header : Token := .arrayHeader (argv.length-2)
  readTyped (arg argv 1) Value.hash
    (.tokens (header::(argv.drop 2).map fun _ => .nullBulk))
    fun h => .tokens (header::(argv.drop 2).map fun field => bulkToken (h.get field))

def eraseFields : List Bytes → HashValue → ℕ×HashValue
  | [],h => (0,h)
  | field::rest,h =>
    let r := eraseFields rest (h.erase field).2
    (r.1+(if (h.erase field).1 then 1 else 0),r.2)

def hdel (argv : List Bytes) : Cmd Response := do
  let key := arg argv 1
  let found ← lookupTyped key Value.hash
  match found with
  | .wrongType => pure .wrongType
  | .missing => pure (.integer 0)
  | .found h =>
    let r := eraseFields (argv.drop 2) h
    store key (.hash r.2)
    if 0 < r.1 then
      markDirty r.1
      notify Notify.kHash "hdel" key
    deleteIfEmpty key (.hash r.2)
    pure (.integer r.1)

def hlen (argv : List Bytes) : Cmd Response :=
  readTyped (arg argv 1) Value.hash (.integer 0) fun h => .integer h.size

def hexists (argv : List Bytes) : Cmd Response :=
  readTyped (arg argv 1) Value.hash (.integer 0) fun h =>
    .integer (if h.contains (arg argv 2) then 1 else 0)

def hstrlen (argv : List Bytes) : Cmd Response :=
  readTyped (arg argv 1) Value.hash (.integer 0) fun h =>
    .integer (((h.get (arg argv 2)).map List.length).getD 0)

def hkeys (argv : List Bytes) : Cmd Response :=
  readTyped (arg argv 1) Value.hash (.token (.arrayHeader 0)) fun h => .tokens (bulkArray h.fields)

def hvals (argv : List Bytes) : Cmd Response :=
  readTyped (arg argv 1) Value.hash (.token (.arrayHeader 0)) fun h => .tokens (bulkArray h.values)

def hgetall (argv : List Bytes) : Cmd Response :=
  readTyped (arg argv 1) Value.hash (.token (.mapHeader 0)) fun h =>
    .tokens (.mapHeader (h.flatten.length/2)::h.flatten.map .bulk)

/-- The end of an increment that is refused: a hash created for it is removed again. -/
def refuseField (key : Bytes) (h : HashValue) (text : String) : Cmd Response := do
  deleteIfEmpty key (.hash h)
  pure (.err text)

def fieldNumber (h : HashValue) (field : Bytes) : Option ℤ :=
  match h.get field with
  | none => some 0
  | some existing => stringToInt64 existing

def hincrby (argv : List Bytes) : Cmd Response :=
  let key := arg argv 1
  match stringToInt64 (arg argv 3) with
  | none => pure .notAnInteger
  | some delta => do
    let found ← lookupOrCreate key Value.hash .makeHash
    match found with
    | .wrongType | .missing => pure .wrongType
    | .found h =>
      match fieldNumber h (arg argv 2) with
      | none => refuseField key h "ERR hash value is not an integer"
      | some current =>
        if sumOverflows current delta then
          refuseField key h "ERR increment or decrement would overflow"
        else
          store key (.hash (h.set (arg argv 2) (intDecimal (current+delta))).2)
          markDirty 1
          notify Notify.kHash "hincrby" key
          pure (.integer (current+delta))

/-- Options of `HRANDFIELD`: the count, if there is one, and whether values are wanted. -/
def parseRandfield : List Bytes → Except Response (Option (ℤ×Bool))
  | [] => .ok none
  | text::rest =>
    match stringToInt64 text with
    | none => .error .notAnInteger
    | some count =>
      match rest with
      | [] => .ok (some (count,false))
      | word::_ =>
        if isWord word "WITHVALUES" then .ok (some (count,true)) else .error .syntaxError

def pickSome (size : ℕ) : ℕ → Draws → List ℕ×Draws
  | 0,draws => ([],draws)
  | n+1,draws =>
    let r := pickSome size n draws.tail
    (draws.head%size::r.1,r.2)

/-- `std::shuffle`: from the second element on, each is exchanged with one up to it. -/
def shuffleLoop : ℕ → List ℕ → ℕ → Draws → List ℕ×Draws
  | 0,xs,_,draws => (xs,draws)
  | n+1,xs,i,draws =>
    let j := draws.head%(i+1)
    shuffleLoop n ((xs.set i (xs.getD j 0)).set j (xs.getD i 0)) (i+1) draws.tail

def pickDistinct (size wanted : ℕ) (draws : Draws) : List ℕ×Draws :=
  let r := shuffleLoop (size-1) (List.range size) 1 draws
  (r.1.take wanted,r.2)

/-- The picks for a count; the negation of the smallest count wraps to itself. -/
def picksFor (size : ℕ) (count : ℤ) (draws : Draws) : List ℕ×Draws :=
  if count < 0 then pickSome size (-count).toNat draws
  else pickDistinct size (min count.toNat size) draws

def randfieldReply (flat : List Bytes) (withValues : Bool) (picks : List ℕ) : Response :=
  if withValues then
    .tokens (.arrayHeader (picks.length*2)::
      picks.flatMap fun i => [.bulk (flat.getD (i*2) []),.bulk (flat.getD (i*2+1) [])])
  else .tokens (.arrayHeader picks.length::picks.map fun i => .bulk (flat.getD (i*2) []))

def randfieldFrom (h : HashValue) : Option (ℤ×Bool) → Cmd Response
  | none => do
    let picks ← random (pickSome (h.flatten.length/2) 1)
    pure (.bulk (h.flatten.getD (picks.headD 0*2) []))
  | some (count,withValues) => do
    let picks ← random (picksFor (h.flatten.length/2) count)
    pure (randfieldReply h.flatten withValues picks)

def noField : Option (ℤ×Bool) → Response
  | none => .nullBulk
  | some _ => .token (.arrayHeader 0)

def hrandfield (argv : List Bytes) : Cmd Response := do
  let found ← lookupTypedRead (arg argv 1) Value.hash
  match found with
  | .wrongType => pure .wrongType
  | .missing =>
    match parseRandfield (argv.drop 2) with
    | .error e => pure e
    | .ok o => pure (noField o)
  | .found h =>
    match parseRandfield (argv.drop 2) with
    | .error e => pure e
    | .ok o => if h.size=0 then pure (noField o) else randfieldFrom h o

section Float

variable [Platform]

def fieldLong (h : HashValue) (field : Bytes) : Option LongDouble :=
  match h.get field with
  | none => some Platform.zeroLong
  | some existing => parseLongDouble existing

def hincrbyfloat (argv : List Bytes) : Cmd Response :=
  let key := arg argv 1
  match parseLongDouble (arg argv 3) with
  | none => pure .notAFloat
  | some delta => do
    let found ← lookupOrCreate key Value.hash .makeHash
    match found with
    | .wrongType | .missing => pure .wrongType
    | .found h =>
      match fieldLong h (arg argv 2) with
      | none => refuseField key h "ERR hash value is not a float"
      | some current =>
        let result := Platform.addLong current delta
        if Platform.isNaNLong result || Platform.isInfLong result then
          refuseField key h "ERR increment would produce NaN or Infinity"
        else
          store key (.hash (h.set (arg argv 2) (formatLongDouble result)).2)
          markDirty 1
          notify Notify.kHash "hincrbyfloat" key
          pure (.bulk (formatLongDouble result))

end Float

end Mnemos.Commands

/-! ## Set commands -/

namespace Mnemos

def SetValue.randomMember (s : SetValue) (draws : Draws) : Option Bytes×Draws :=
  if s.size=0 then (none,draws)
  else
    match s with
    | .hashTable table => ((table.randomEntry draws).1.map Sigma.fst,(table.randomEntry draws).2)
    | s => (some (s.members.getD (draws.head%s.members.length) []),draws.tail)

namespace Commands

open Cmd

inductive SetOp where
  | intersect
  | union
  | difference

/-- None after a key of another type. -/
def gatherSets : List Bytes → Cmd (Option (List (List Bytes)))
  | [] => pure (some [])
  | key::rest => do
    let found ← lookupTypedRead key Value.set
    match found with
    | .wrongType => pure none
    | .missing => do
      let others ← gatherSets rest
      pure (others.map ([]::·))
    | .found s => do
      let others ← gatherSets rest
      pure (others.map (s.members::·))

def smallestIndex (sets : List (List Bytes)) : ℕ :=
  sets.findIdx fun a => sets.all fun b => a.length ≤ b.length

def unionLoop : List Bytes → List Bytes → List Bytes
  | [],_ => []
  | member::rest,seen =>
    if seen.contains member then unionLoop rest seen else member::unionLoop rest (member::seen)

def applySetOp (op : SetOp) (sets : List (List Bytes)) (limit : ℕ) : List Bytes :=
  match op with
  | .intersect =>
    let i := smallestIndex sets
    let others := sets.eraseIdx i
    let result := (sets.getD i []).filter fun member => others.all (·.contains member)
    if 0 < limit then result.take limit else result
  | .union => unionLoop sets.flatten []
  | .difference =>
    (sets.headD []).filter fun member => !(sets.drop 1).any (·.contains member)

def storeEventName : SetOp → String
  | .intersect => "sinterstore"
  | .union => "sunionstore"
  | .difference => "sdiffstore"

def addMembers : List Bytes → SetValue → ℕ×SetValue
  | [],s => (0,s)
  | member::rest,s =>
    let r := addMembers rest (s.add member).2
    (r.1+(if (s.add member).1 then 1 else 0),r.2)

def setReply (members : List Bytes) : Response :=
  .tokens (.setHeader members.length::members.map .bulk)

def storeSet (dst : Bytes) (op : SetOp) (result : List Bytes) : Cmd Unit :=
  if result≠[] then do
    setKey dst .makeSet
    let destination ← lookupWrite dst
    store dst (.set (addMembers result ((destination.bind Value.set).getD .empty)).2)
    notify Notify.kSet (storeEventName op) dst
  else do
    let erased ← eraseKey dst
    if erased then notify Notify.kGeneric "del" dst

def setOpCommand (op : SetOp) (storing : Bool) (argv : List Bytes) : Cmd Response := do
  let sets ← gatherSets (argv.drop (if storing then 2 else 1))
  match sets with
  | none => pure .wrongType
  | some sets =>
    let result := applySetOp op sets 0
    if !storing then pure (setReply result)
    else
      storeSet (arg argv 1) op result
      markDirty 1
      pure (.integer result.length)

def sadd (argv : List Bytes) : Cmd Response := do
  let key := arg argv 1
  let found ← lookupOrCreate key Value.set .makeSet
  match found with
  | .wrongType | .missing => pure .wrongType
  | .found s =>
    let r := addMembers (argv.drop 2) s
    store key (.set r.2)
    if 0 < r.1 then
      markDirty r.1
      notify Notify.kSet "sadd" key
    pure (.integer r.1)

def eraseMembers : List Bytes → SetValue → ℕ×SetValue
  | [],s => (0,s)
  | member::rest,s =>
    let r := eraseMembers rest (s.erase member).2
    (r.1+(if (s.erase member).1 then 1 else 0),r.2)

def srem (argv : List Bytes) : Cmd Response := do
  let key := arg argv 1
  let found ← lookupTyped key Value.set
  match found with
  | .wrongType => pure .wrongType
  | .missing => pure (.integer 0)
  | .found s =>
    let r := eraseMembers (argv.drop 2) s
    store key (.set r.2)
    if 0 < r.1 then
      markDirty r.1
      notify Notify.kSet "srem" key
    deleteIfEmpty key (.set r.2)
    pure (.integer r.1)

def scard (argv : List Bytes) : Cmd Response :=
  readTyped (arg argv 1) Value.set (.integer 0) fun s => .integer s.size

def isMember (s : SetValue) (member : Bytes) : ℤ := if s.contains member then 1 else 0

def sismember (argv : List Bytes) : Cmd Response :=
  readTyped (arg argv 1) Value.set (.integer 0) fun s => .integer (isMember s (arg argv 2))

def smismember (argv : List Bytes) : Cmd Response :=
  let header : Token := .arrayHeader (argv.length-2)
  readTyped (arg argv 1) Value.set (.tokens (header::(argv.drop 2).map fun _ => .integer 0))
    fun s => .tokens (header::(argv.drop 2).map fun member => .integer (isMember s member))

def smembers (argv : List Bytes) : Cmd Response :=
  readTyped (arg argv 1) Value.set (setReply []) fun s => setReply s.members

def spopLoop : ℕ → SetValue → Draws → (List Bytes×SetValue)×Draws
  | 0,s,draws => (([],s),draws)
  | n+1,s,draws =>
    match s.randomMember draws with
    | (none,draws) => (([],s),draws)
    | (some member,draws) =>
      let r := spopLoop n (s.erase member).2 draws
      ((member::r.1.1,r.1.2),r.2)

def parseSpopCount : List Bytes → Except Response (Option ℕ)
  | [] => .ok none
  | text::_ =>
    match stringToInt64 text with
    | none => .error (.err "ERR value is out of range, must be positive")
    | some count =>
      if count < 0 then .error (.err "ERR value is out of range, must be positive")
      else .ok (some count.toNat)

def nothingPopped : Option ℕ → Response
  | none => .nullBulk
  | some _ => setReply []

def spopReply (count : Option ℕ) (popped : List Bytes) : Response :=
  match count with
  | some _ => setReply popped
  | none => .bulk (popped.headD [])

def spop (argv : List Bytes) : Cmd Response := do
  let key := arg argv 1
  let found ← lookupTyped key Value.set
  match found with
  | .wrongType => pure .wrongType
  | .missing =>
    match parseSpopCount (argv.drop 2) with
    | .error e => pure e
    | .ok count => pure (nothingPopped count)
  | .found s =>
    match parseSpopCount (argv.drop 2) with
    | .error e => pure e
    | .ok count =>
      if s.size=0 then pure (nothingPopped count)
      else
        let popped ← random (spopLoop (count.getD 1) s)
        store key (.set popped.2)
        if popped.1≠[] then
          markDirty popped.1.length
          notify Notify.kSet "spop" key
        deleteIfEmpty key (.set popped.2)
        pure (spopReply count popped.1)

def parseSrandCount : List Bytes → Except Response (Option ℤ)
  | [] => .ok none
  | text::_ =>
    match stringToInt64 text with
    | none => .error .notAnInteger
    | some count => .ok (some count)

def srandFrom (members : List Bytes) : Option ℤ → Cmd Response
  | none => do
    let picks ← random (pickSome members.length 1)
    pure (.bulk (members.getD (picks.headD 0) []))
  | some count => do
    let picks ← random (picksFor members.length count)
    pure (.tokens (bulkArray (picks.map fun i => members.getD i [])))

def noMember : Option ℤ → Response
  | none => .nullBulk
  | some _ => .token (.arrayHeader 0)

def srandmember (argv : List Bytes) : Cmd Response := do
  let found ← lookupTypedRead (arg argv 1) Value.set
  match found with
  | .wrongType => pure .wrongType
  | .missing =>
    match parseSrandCount (argv.drop 2) with
    | .error e => pure e
    | .ok count => pure (noMember count)
  | .found s =>
    match parseSrandCount (argv.drop 2) with
    | .error e => pure e
    | .ok count => if s.size=0 then pure (noMember count) else srandFrom s.members count

def smove (argv : List Bytes) : Cmd Response := do
  let source := arg argv 1
  let destination := arg argv 2
  let member := arg argv 3
  let src ← lookupTyped source Value.set
  match src with
  | .wrongType => pure .wrongType
  | .missing => do
    let dst ← lookupTyped destination Value.set
    match dst with
    | .wrongType => pure .wrongType
    | .missing | .found _ => pure (.integer 0)
  | .found s => do
    let dst ← lookupTyped destination Value.set
    match dst with
    | .wrongType => pure .wrongType
    | .missing | .found _ =>
      if !s.contains member then pure (.integer 0)
      else
        store source (.set (s.erase member).2)
        notify Notify.kSet "srem" source
        deleteIfEmpty source (.set (s.erase member).2)
        let target ← lookupOrCreate destination Value.set .makeSet
        match target with
        | .wrongType | .missing => pure .wrongType
        | .found t =>
          store destination (.set (t.add member).2)
          notify Notify.kSet "sadd" destination
          markDirty 1
          pure (.integer 1)

def sinter (argv : List Bytes) : Cmd Response := setOpCommand .intersect false argv
def sunion (argv : List Bytes) : Cmd Response := setOpCommand .union false argv
def sdiff (argv : List Bytes) : Cmd Response := setOpCommand .difference false argv
def sinterstore (argv : List Bytes) : Cmd Response := setOpCommand .intersect true argv
def sunionstore (argv : List Bytes) : Cmd Response := setOpCommand .union true argv
def sdiffstore (argv : List Bytes) : Cmd Response := setOpCommand .difference true argv

/-- The limit of `sintercard`, from the arguments after the keys. -/
def parseIntercardLimit : List Bytes → Except Response ℕ
  | [] => .ok 0
  | [word,text] =>
    if !isWord word "LIMIT" then .error .syntaxError
    else
      match stringToInt64 text with
      | none => .error (.err "ERR LIMIT can't be negative")
      | some limit =>
        if limit < 0 then .error (.err "ERR LIMIT can't be negative") else .ok limit.toNat
  | _ => .error .syntaxError

def sintercard (argv : List Bytes) : Cmd Response :=
  match stringToInt64 (arg argv 1) with
  | none => pure (.err "ERR numkeys should be greater than 0")
  | some numkeys =>
    if numkeys ≤ 0 then pure (.err "ERR numkeys should be greater than 0")
    else if (argv.length : ℤ) < numkeys+2 then
      pure (.err "ERR Number of keys can't be greater than number of args")
    else
      match parseIntercardLimit (argv.drop (numkeys.toNat+2)) with
      | .error e => pure e
      | .ok limit => do
        let sets ← gatherSets ((argv.drop 2).take numkeys.toNat)
        match sets with
        | none => pure .wrongType
        | some sets => pure (.integer (applySetOp .intersect sets limit).length)

end Commands

end Mnemos

/-! ## Set algebra -/

open List

namespace Mnemos.Commands

variable {sets : List (List Bytes)} {member : Bytes}

theorem smallestIndex_lt (h : sets≠[]) : smallestIndex sets < sets.length := by
  rw [smallestIndex,findIdx_lt_length]
  obtain ⟨a,ha,hmin⟩ := sets.toFinset.exists_min_image length (by simpa using h)
  exact ⟨a,by simpa using ha,by simpa using hmin⟩

theorem unionLoop_spec (members seen : List Bytes) : (unionLoop members seen).Nodup ∧
    ∀ m,m∈unionLoop members seen ↔ m∈members ∧ m∉seen := by
  fun_induction unionLoop members seen with
  | case1 => simp
  | case2 member rest seen hseen ih =>
    rw [contains_iff_mem] at hseen
    refine ⟨ih.1,fun m => ?_⟩
    rw [ih.2]
    grind
  | case3 member rest seen hseen ih =>
    rw [contains_iff_mem] at hseen
    refine ⟨nodup_cons.mpr ⟨?_,ih.1⟩,fun m => ?_⟩
    · rw [ih.2]
      simp
    · rw [mem_cons,ih.2]
      grind

theorem mem_applySetOp_intersect :
    member∈applySetOp .intersect sets 0 ↔ sets≠[] ∧ ∀ s∈sets,member∈s := by
  by_cases h : sets=[]
  · subst h
    simp [applySetOp]
  · have hlt := smallestIndex_lt h
    have hsplit := fun s => (getElem_cons_eraseIdx_perm hlt).mem_iff (a := s)
    simp only [applySetOp,Nat.lt_irrefl,if_false,mem_filter,getD_eq_getElem _ _ hlt,all_eq_true,
      contains_iff_mem]
    simp only [← hsplit,mem_cons,forall_eq_or_imp]
    simp [h]

theorem nodup_applySetOp (op : SetOp) (h : ∀ s∈sets,s.Nodup) : (applySetOp op sets 0).Nodup := by
  have hget : ∀ i,(sets.getD i []).Nodup := by
    intro i
    rw [getD_eq_getElem?_getD]
    cases hi : sets[i]? with
    | none => exact .nil
    | some s => exact h s (mem_of_getElem? hi)
  cases op with
  | intersect => exact (hget _).filter _
  | union => exact (unionLoop_spec _ _).1
  | difference =>
    rw [applySetOp,headD_eq_head?_getD,head?_eq_getElem?,← getD_eq_getElem?_getD]
    exact (hget 0).filter _

/-- **Set algebra**: the operations return what the intersection, the union and the difference hold,
each member once; the order of the inputs of the first two does not matter; and a limit cuts the
intersection. -/
theorem set_algebra (h : ∀ s∈sets,s.Nodup) :
    (∀ op,(applySetOp op sets 0).Nodup) ∧
      (∀ m,m∈applySetOp .intersect sets 0 ↔ sets≠[] ∧ ∀ s∈sets,m∈s) ∧
      (∀ m,m∈applySetOp .union sets 0 ↔ ∃ s∈sets,m∈s) ∧
      (∀ m,m∈applySetOp .difference sets 0 ↔ m∈sets.headD [] ∧ ∀ s∈sets.tail,m∉s) ∧
      (∀ sets',sets'~sets → ∀ op≠.difference,applySetOp op sets' 0~applySetOp op sets 0) ∧
      ∀ limit > 0,(applySetOp .intersect sets limit).length=
          min limit (applySetOp .intersect sets 0).length ∧
        applySetOp .intersect sets limit <+ applySetOp .intersect sets 0 := by
  have hunion : ∀ (sets : List (List Bytes)) m,m∈applySetOp .union sets 0 ↔ ∃ s∈sets,m∈s := by
    intro sets m
    rw [applySetOp,(unionLoop_spec _ _).2,mem_flatten]
    simp
  refine ⟨fun op => nodup_applySetOp op h,fun m => mem_applySetOp_intersect,hunion sets,
    fun m => ?_,fun sets' hperm op hop => ?_,fun limit hlimit => ?_⟩
  · simp [applySetOp,← drop_one]
  · have h' : ∀ s∈sets',s.Nodup := fun s hs => h s (hperm.mem_iff.mp hs)
    refine (perm_ext_iff_of_nodup (nodup_applySetOp op h') (nodup_applySetOp op h)).mpr fun m => ?_
    cases op with
    | intersect =>
      rw [mem_applySetOp_intersect,mem_applySetOp_intersect,← length_pos_iff,hperm.length_eq,
        length_pos_iff]
      simp only [hperm.mem_iff]
    | union =>
      rw [hunion,hunion]
      simp only [hperm.mem_iff]
    | difference => exact absurd rfl hop
  · simp only [applySetOp,if_pos hlimit,Nat.lt_irrefl,if_false]
    exact ⟨length_take,take_sublist ..⟩

theorem set_algebra_three :
    applySetOp .intersect [[[1],[2],[3]],[[2],[3]],[[3],[2],[4]]] 0 ~
      applySetOp .intersect [[[2],[3]],[[3],[2],[4]],[[1],[2],[3]]] 0 :=
  (set_algebra (by decide)).2.2.2.2.1 _ (by decide) .intersect nofun

end Mnemos.Commands

/-! ## Positions in lists -/

open List

namespace Mnemos.Commands

open Cmd

end Mnemos.Commands
