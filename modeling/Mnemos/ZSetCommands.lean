import Mathlib.Data.List.Sort
import Mnemos.CollectionCommands

/-!
# Sorted-set commands

The handlers of `server/commands/zset_commands.cpp`.
-/

namespace Mnemos

def Double.one : Double := ⟨0x3FF0000000000000⟩

namespace Commands

open Cmd

variable [Platform]

def parseScore (s : Bytes) : Option Double :=
  if s=ascii "inf" || s=ascii "+inf" || s=ascii "infinity" || s=ascii "+infinity" then
    some .infinity
  else if s=ascii "-inf" || s=ascii "-infinity" then some .negInfinity
  else
    let r := Platform.strtodPrefix (cString s)
    if r.2=0 || r.2 != (cString s).length || r.1.isNaN then none else some r.1

/-- The bound and whether it is exclusive. -/
def parseScoreBound : Bytes → Option (Double×Bool)
  | 40::rest => (parseScore rest).map (·,true)
  | text => (parseScore text).map (·,false)

def pairTokens (protover : ℕ) (e : Bytes×Double) : List Token :=
  if 3 ≤ protover then [.arrayHeader 2,.bulk e.1,.doubleValue e.2]
  else [.bulk e.1,.bulk (formatDouble e.2)]

def emitMembers (items : List (Bytes×Double)) (withScores : Bool) : Cmd Response := do
  let protover ← protocolVersion
  if !withScores then pure (.tokens (bulkArray (items.map Prod.fst)))
  else if 3 ≤ protover then
    pure (.tokens (.arrayHeader items.length::items.flatMap (pairTokens protover)))
  else pure (.tokens (.arrayHeader (items.length*2)::items.flatMap (pairTokens protover)))

/-- None when nothing is selected. -/
def resolveIndexRange (start stop : ℤ) (length : ℕ) : Option (ℕ×ℕ) :=
  let start := if start < 0 then start+length else start
  let stop := if stop < 0 then stop+length else stop
  let start := if start < 0 then 0 else start
  let stop := if (length : ℤ) ≤ stop then (length : ℤ)-1 else stop
  if length=0 ∨ stop < start ∨ (length : ℤ) ≤ start then none else some (start.toNat,stop.toNat)

def rankGeneric (reverse : Bool) (argv : List Bytes) : Cmd Response :=
  readTyped (arg argv 1) Value.zset .nullBulk fun z =>
    match z.rank (arg argv 2) with
    | none => .nullBulk
    | some rank => .integer (if reverse then (z.size : ℤ)-rank-1 else rank)

def eraseScored : List Bytes → ZSetValue → ℕ×ZSetValue
  | [],z => (0,z)
  | member::rest,z =>
    let r := eraseScored rest (z.erase member).2
    (r.1+(if (z.erase member).1 then 1 else 0),r.2)

def endPairs (z : ZSetValue) (lowest : Bool) (count : ℕ) : List (Bytes×Double) :=
  (if lowest then z.all else z.all.reverse).take count

def withoutPairs (z : ZSetValue) (popped : List (Bytes×Double)) : ZSetValue :=
  (eraseScored (popped.map Prod.fst) z).2

def popEvent (lowest : Bool) : String := if lowest then "zpopmin" else "zpopmax"

/-- The reply of a pop; without a count the third version sends the pair flat. -/
def zpopReply (counted : Bool) (popped : List (Bytes×Double)) : Cmd Response := do
  let protover ← protocolVersion
  if !counted && 3 ≤ protover then
    pure (.tokens (.arrayHeader (popped.length*2)::
      popped.flatMap fun e => [.bulk e.1,.doubleValue e.2]))
  else emitMembers popped true

def zpopGeneric (lowest : Bool) (argv : List Bytes) : Cmd Response := do
  let key := arg argv 1
  let found ← lookupTyped key Value.zset
  match found with
  | .wrongType => pure .wrongType
  | .missing =>
    match parseSpopCount (argv.drop 2) with
    | .error e => pure e
    | .ok _ => pure (.token (.arrayHeader 0))
  | .found z =>
    match parseSpopCount (argv.drop 2) with
    | .error e => pure e
    | .ok count =>
      let popped := endPairs z lowest (count.getD 1)
      store key (.zset (withoutPairs z popped))
      if popped≠[] then
        markDirty popped.length
        notify Notify.kZset (popEvent lowest) key
      deleteIfEmpty key (.zset (withoutPairs z popped))
      zpopReply count.isSome popped

structure ZaddFlags where
  nx : Bool
  xx : Bool
  gt : Bool
  lt : Bool
  ch : Bool
  incr : Bool

def parseZaddFlags : List Bytes → ZaddFlags → ZaddFlags×List Bytes
  | [],f => (f,[])
  | token::rest,f =>
    if isWord token "NX" then parseZaddFlags rest { f with nx := true }
    else if isWord token "XX" then parseZaddFlags rest { f with xx := true }
    else if isWord token "GT" then parseZaddFlags rest { f with gt := true }
    else if isWord token "LT" then parseZaddFlags rest { f with lt := true }
    else if isWord token "CH" then parseZaddFlags rest { f with ch := true }
    else if isWord token "INCR" then parseZaddFlags rest { f with incr := true }
    else (f,token::rest)

/-- The pairs of `zadd`; none when a score is not a number. -/
def parseUpdates : List Bytes → Option (List (Double×Bytes))
  | text::member::rest =>
    match parseScore text,parseUpdates rest with
    | some score,some updates => some ((score,member)::updates)
    | _,_ => none
  | _ => some []

def parseZadd (tokens : List Bytes) : Except Response (ZaddFlags×List (Double×Bytes)) :=
  let r := parseZaddFlags tokens ⟨false,false,false,false,false,false⟩
  let f := r.1
  if f.nx && (f.xx || f.gt || f.lt) || f.gt && f.lt then
    .error (.err "ERR GT, LT, and/or NX options at the same time are not compatible")
  else if r.2=[] || r.2.length%2 != 0 then .error .syntaxError
  else if f.incr && r.2.length != 2 then
    .error (.err "ERR INCR option supports a single increment-element pair")
  else
    match parseUpdates r.2 with
    | none => .error .notAFloat
    | some updates => .ok (f,updates)

inductive ZaddMove where
  | skip
  | notANumber
  | blocked
  | write (score : Double)

/-- The filters of `zadd`, for the score that the member has. -/
def zaddMove (f : ZaddFlags) (existing : Option Double) (score : Double) : ZaddMove :=
  if f.nx && existing.isSome then .skip
  else if f.xx && existing.isNone then .skip
  else
    let final := if f.incr then Platform.add (existing.getD .zero) score else score
    if f.incr && final.isNaN then .notANumber
    else if f.gt && existing.any (final.le ·) || f.lt && existing.any (·.le final) then
      if f.incr then .blocked else .skip
    else .write final

inductive ZaddEnd where
  | notANumber
  | blocked
  | incremented (score : Double)
  | finished (added changed : ℕ)

def zaddLoop (f : ZaddFlags) : List (Double×Bytes) → ℕ → ℕ → ZSetValue → Draws →
    (ZaddEnd×ZSetValue)×Draws
  | [],added,changed,z,draws => ((.finished added changed,z),draws)
  | (score,member)::rest,added,changed,z,draws =>
    match zaddMove f (z.score member) score with
    | .skip => zaddLoop f rest added changed z draws
    | .notANumber => ((.notANumber,z),draws)
    | .blocked => ((.blocked,z),draws)
    | .write final =>
      let r := z.add member final draws
      if f.incr then ((.incremented final,r.2.1),r.2.2)
      else if r.1 then zaddLoop f rest (added+1) changed r.2.1 r.2.2
      else if (z.score member).any (·.eq final) then zaddLoop f rest added changed r.2.1 r.2.2
      else zaddLoop f rest added (changed+1) r.2.1 r.2.2

def zaddTarget (f : ZaddFlags) (key : Bytes) : Cmd (Lookup ZSetValue) :=
  if f.xx then lookupTyped key Value.zset else lookupOrCreate key Value.zset .makeZSet

def zaddFinish (f : ZaddFlags) (updates : ℕ) (key : Bytes) (z : ZSetValue) :
    ZaddEnd → Cmd Response
  | .notANumber => pure (.err "ERR resulting score is not a number (NaN)")
  | .blocked => pure .nullBulk
  | .incremented score => do
    markDirty 1
    notify Notify.kZset "zincr" key
    pure (.token (.doubleValue score))
  | .finished added changed => do
    markDirty updates
    if 0 < added+changed then notify Notify.kZset "zadd" key
    deleteIfEmpty key (.zset z)
    pure (.integer (if f.ch then added+changed else added))

def zadd (argv : List Bytes) : Cmd Response :=
  let key := arg argv 1
  match parseZadd (argv.drop 2) with
  | .error e => pure e
  | .ok p => do
    let found ← zaddTarget p.1 key
    match found with
    | .wrongType => pure .wrongType
    | .missing => pure (if p.1.incr then .nullBulk else .integer 0)
    | .found z =>
      let r ← random (zaddLoop p.1 p.2 0 0 z)
      store key (.zset r.2)
      zaddFinish p.1 p.2.length key r.2 r.1

def removeScored (event : String) (key : Bytes) (z : ZSetValue) (members : List Bytes) :
    Cmd Response := do
  let r := eraseScored members z
  store key (.zset r.2)
  if 0 < r.1 then
    markDirty r.1
    notify Notify.kZset event key
  deleteIfEmpty key (.zset r.2)
  pure (.integer r.1)

/-- The commands that remove the members which `chosen` selects. -/
def removeWith (event : String) (key : Bytes) (chosen : ZSetValue → List Bytes) :
    Cmd Response := do
  let found ← lookupTyped key Value.zset
  match found with
  | .wrongType => pure .wrongType
  | .missing => pure (.integer 0)
  | .found z => removeScored event key z (chosen z)

def zrem (argv : List Bytes) : Cmd Response :=
  removeWith "zrem" (arg argv 1) fun _ => argv.drop 2

def scoreOrNull : Option Double → Token
  | some score => .doubleValue score
  | none => .nullBulk

def zscore (argv : List Bytes) : Cmd Response :=
  readTyped (arg argv 1) Value.zset .nullBulk fun z => .token (scoreOrNull (z.score (arg argv 2)))

def zmscore (argv : List Bytes) : Cmd Response :=
  let header : Token := .arrayHeader (argv.length-2)
  readTyped (arg argv 1) Value.zset (.tokens (header::(argv.drop 2).map fun _ => .nullBulk))
    fun z => .tokens (header::(argv.drop 2).map fun member => scoreOrNull (z.score member))

def zcard (argv : List Bytes) : Cmd Response :=
  readTyped (arg argv 1) Value.zset (.integer 0) fun z => .integer z.size

def zincrby (argv : List Bytes) : Cmd Response :=
  let key := arg argv 1
  let member := arg argv 3
  match parseScore (arg argv 2) with
  | none => pure .notAFloat
  | some delta => do
    let found ← lookupOrCreate key Value.zset .makeZSet
    match found with
    | .wrongType | .missing => pure .wrongType
    | .found z =>
      let result := Platform.add ((z.score member).getD .zero) delta
      if result.isNaN then
        deleteIfEmpty key (.zset z)
        pure (.err "ERR resulting score is not a number (NaN)")
      else
        let z ← random fun draws => (z.add member result draws).2
        store key (.zset z)
        markDirty 1
        notify Notify.kZset "zincr" key
        pure (.token (.doubleValue result))

def zrank (argv : List Bytes) : Cmd Response := rankGeneric false argv
def zrevrank (argv : List Bytes) : Cmd Response := rankGeneric true argv

inductive RangeBy where
  | rank
  | score
  | lex
deriving DecidableEq

structure RangeOptions where
  by_ : RangeBy
  reverse : Bool
  withScores : Bool
  limit : Option (ℤ×ℤ)

inductive RangeBounds where
  | rank (start stop : ℤ)
  | score (range : ScoreRange)
  | lex (range : LexRange)

structure RangeSpec where
  options : RangeOptions
  bounds : RangeBounds

def parseLexBound (text : Bytes) : Option LexBound :=
  if text=ascii "-" then some .negInf
  else if text=ascii "+" then some .posInf
  else
    match text with
    | 91::rest => some (.value rest false)
    | 40::rest => some (.value rest true)
    | _ => none

/-- The option loop of `parseRangeSpec`; the first argument counts the words already used. -/
def rangeOptionLoop (generic allowWithScores : Bool) : ℕ → List Bytes → RangeOptions →
    Except Response RangeOptions
  | _,[],o => .ok o
  | used+1,_::rest,o => rangeOptionLoop generic allowWithScores used rest o
  | 0,token::rest,o =>
    if generic && isWord token "BYSCORE" then
      rangeOptionLoop generic allowWithScores 0 rest { o with by_ := .score }
    else if generic && isWord token "BYLEX" then
      rangeOptionLoop generic allowWithScores 0 rest { o with by_ := .lex }
    else if generic && isWord token "REV" then
      rangeOptionLoop generic allowWithScores 0 rest { o with reverse := true }
    else if allowWithScores && isWord token "WITHSCORES" then
      rangeOptionLoop generic allowWithScores 0 rest { o with withScores := true }
    else if isWord token "LIMIT" && 2 ≤ rest.length then
      match stringToInt64 (rest.getD 0 []),stringToInt64 (rest.getD 1 []) with
      | some offset,some count =>
        rangeOptionLoop generic allowWithScores 2 rest { o with limit := some (offset,count) }
      | _,_ => .error .notAnInteger
    else .error .syntaxError

def parseBounds (by_ : RangeBy) (first second low high : Bytes) : Except Response RangeBounds :=
  match by_ with
  | .rank =>
    match stringToInt64 first,stringToInt64 second with
    | some start,some stop => .ok (.rank start stop)
    | _,_ => .error .notAnInteger
  | .score =>
    match parseScoreBound low,parseScoreBound high with
    | some min,some max => .ok (.score ⟨min.1,max.1,min.2,max.2⟩)
    | _,_ => .error (.err "ERR min or max is not a float")
  | .lex =>
    match parseLexBound low,parseLexBound high with
    | some min,some max => .ok (.lex ⟨min,max⟩)
    | _,_ => .error (.err "ERR min or max not valid string range item")

/-- On the arguments from the bounds on. -/
def parseRangeSpec (generic allowWithScores : Bool) (by_ : RangeBy) (reverse : Bool)
    (args : List Bytes) : Except Response RangeSpec :=
  match rangeOptionLoop generic allowWithScores 0 (args.drop 2) ⟨by_,reverse,false,none⟩ with
  | .error e => .error e
  | .ok o =>
    if o.limit.isSome && o.by_==.rank then
      .error (.err "ERR syntax error, LIMIT is only supported in combination with either BYSCORE or BYLEX")
    else if o.withScores && o.by_==.lex then
      .error (.err "ERR syntax error, WITHSCORES not supported in combination with BYLEX")
    else
      let first := args.getD 0 []
      let second := args.getD 1 []
      -- `REV` is written (max, min), but an index range keeps its order.
      let low := if o.reverse then second else first
      let high := if o.reverse then first else second
      match parseBounds o.by_ first second low high with
      | .error e => .error e
      | .ok bounds => .ok ⟨o,bounds⟩

def limitItems (items : List (Bytes×Double)) : Option (ℤ×ℤ) → List (Bytes×Double)
  | none => items
  | some (offset,count) =>
    if offset < 0 ∨ (items.length : ℤ) ≤ offset then []
    else
      let items := items.drop offset.toNat
      if 0 ≤ count ∧ count < items.length then items.take count.toNat else items

def ordered (reverse : Bool) (items : List (Bytes×Double)) : List (Bytes×Double) :=
  if reverse then items.reverse else items

def collectRange (z : ZSetValue) (spec : RangeSpec) : List (Bytes×Double) :=
  match spec.bounds with
  | .rank start stop =>
    let all := ordered spec.options.reverse z.all
    match resolveIndexRange start stop all.length with
    | none => []
    | some (start,stop) => (all.take (stop+1)).drop start
  | .score range =>
    limitItems (ordered spec.options.reverse (z.rangeByScore range)) spec.options.limit
  | .lex range =>
    limitItems (ordered spec.options.reverse (z.rangeByLex range)) spec.options.limit

def rangeCommand (by_ : RangeBy) (reverse generic allowWithScores : Bool) (argv : List Bytes) :
    Cmd Response :=
  match parseRangeSpec generic allowWithScores by_ reverse (argv.drop 2) with
  | .error e => pure e
  | .ok spec => do
    let found ← lookupTypedRead (arg argv 1) Value.zset
    match found with
    | .wrongType => pure .wrongType
    | .missing => pure (.token (.arrayHeader 0))
    | .found z => emitMembers (collectRange z spec) spec.options.withScores

def zrange (argv : List Bytes) : Cmd Response := rangeCommand .rank false true true argv
def zrevrange (argv : List Bytes) : Cmd Response := rangeCommand .rank true false true argv
def zrangebyscore (argv : List Bytes) : Cmd Response := rangeCommand .score false false true argv
def zrevrangebyscore (argv : List Bytes) : Cmd Response := rangeCommand .score true false true argv
def zrangebylex (argv : List Bytes) : Cmd Response := rangeCommand .lex false false true argv
def zrevrangebylex (argv : List Bytes) : Cmd Response := rangeCommand .lex true false true argv

def scoreArguments (argv : List Bytes) : Except Response ScoreRange :=
  match parseScoreBound (arg argv 2),parseScoreBound (arg argv 3) with
  | some min,some max => .ok ⟨min.1,max.1,min.2,max.2⟩
  | _,_ => .error (.err "ERR min or max is not a float")

def lexArguments (argv : List Bytes) : Except Response LexRange :=
  match parseLexBound (arg argv 2),parseLexBound (arg argv 3) with
  | some min,some max => .ok ⟨min,max⟩
  | _,_ => .error (.err "ERR min or max not valid string range item")

def zcount (argv : List Bytes) : Cmd Response :=
  match scoreArguments argv with
  | .error e => pure e
  | .ok range =>
    readTyped (arg argv 1) Value.zset (.integer 0) fun z => .integer (z.rangeByScore range).length

def membersByRank (start stop : ℤ) (z : ZSetValue) : List Bytes :=
  match resolveIndexRange start stop z.all.length with
  | none => []
  | some (start,stop) => ((z.all.take (stop+1)).drop start).map Prod.fst

/-- Which leaves early when no index is selected. -/
def zremrangebyrank (argv : List Bytes) : Cmd Response :=
  match stringToInt64 (arg argv 2),stringToInt64 (arg argv 3) with
  | some start,some stop => do
    let found ← lookupTyped (arg argv 1) Value.zset
    match found with
    | .wrongType => pure .wrongType
    | .missing => pure (.integer 0)
    | .found z =>
      if (resolveIndexRange start stop z.all.length).isNone then pure (.integer 0)
      else removeScored "zremrangebyrank" (arg argv 1) z (membersByRank start stop z)
  | _,_ => pure .notAnInteger

def zremrangebyscore (argv : List Bytes) : Cmd Response :=
  match scoreArguments argv with
  | .error e => pure e
  | .ok range =>
    removeWith "zremrangebyscore" (arg argv 1) fun z => (z.rangeByScore range).map Prod.fst

def zpopmin (argv : List Bytes) : Cmd Response := zpopGeneric true argv
def zpopmax (argv : List Bytes) : Cmd Response := zpopGeneric false argv

/-- The options of `zrandmember`: the count and whether scores are wanted. -/
def parseZrand : List Bytes → Except Response (Option (ℤ×Bool))
  | [] => .ok none
  | text::rest =>
    match stringToInt64 text with
    | none => .error .notAnInteger
    | some count =>
      match rest with
      | [] => .ok (some (count,false))
      | word::_ => if isWord word "WITHSCORES" then .ok (some (count,true)) else .error .syntaxError

def zrandFrom (all : List (Bytes×Double)) : Option (ℤ×Bool) → Cmd Response
  | none => do
    let picks ← random (pickSome all.length 1)
    pure (.bulk (all.getD (picks.headD 0) ([],.zero)).1)
  | some (count,withScores) => do
    let picks ← random (picksFor all.length count)
    emitMembers (picks.map fun i => all.getD i ([],.zero)) withScores

def zrandmember (argv : List Bytes) : Cmd Response := do
  let found ← lookupTypedRead (arg argv 1) Value.zset
  match found with
  | .wrongType => pure .wrongType
  | .missing =>
    match parseZrand (argv.drop 2) with
    | .error e => pure e
    | .ok options => pure (noField options)
  | .found z =>
    match parseZrand (argv.drop 2) with
    | .error e => pure e
    | .ok options => if z.size=0 then pure (noField options) else zrandFrom z.all options

def zlexcount (argv : List Bytes) : Cmd Response :=
  match lexArguments argv with
  | .error e => pure e
  | .ok range =>
    readTyped (arg argv 1) Value.zset (.integer 0) fun z => .integer (z.rangeByLex range).length

def zremrangebylex (argv : List Bytes) : Cmd Response :=
  match lexArguments argv with
  | .error e => pure e
  | .ok range =>
    removeWith "zremrangebylex" (arg argv 1) fun z => (z.rangeByLex range).map Prod.fst

def storeRange (destination : Bytes) (items : List (Bytes×Double)) : Cmd Response :=
  if items=[] then do
    let erased ← eraseKey destination
    if erased then
      markDirty 1
      notify Notify.kGeneric "del" destination
    pure (.integer 0)
  else do
    let fresh ← random fun draws => ZSetValue.addAll items (.empty,draws)
    setKey destination (.of (.zset fresh))
    markDirty items.length
    notify Notify.kZset "zrangestore" destination
    pure (.integer items.length)

def zrangestore (argv : List Bytes) : Cmd Response :=
  match parseRangeSpec true false .rank false (argv.drop 3) with
  | .error e => pure e
  | .ok spec => do
    let found ← lookupTypedRead (arg argv 2) Value.zset
    match found with
    | .wrongType => pure .wrongType
    | .missing => storeRange (arg argv 1) []
    | .found z => storeRange (arg argv 1) (collectRange z spec)

inductive ZSetOp where
  | union
  | intersect
  | difference
deriving DecidableEq

inductive Aggregate where
  | sum
  | min
  | max

structure ZSetSource where
  members : List (Bytes×Double)
  weight : Double

def sourceMembers (v : Value) : Option (List (Bytes×Double)) :=
  match v.data with
  | .zset z => some z.all
  | .set s => some (s.members.map (·,.one))
  | _ => none

/-- None after a key of another type. -/
def gatherZSetSources : List Bytes → Cmd (Option (List (List (Bytes×Double))))
  | [] => pure (some [])
  | key::rest => do
    let found ← lookupTypedRead key sourceMembers
    match found with
    | .wrongType => pure none
    | .missing => do
      let others ← gatherZSetSources rest
      pure (others.map ([]::·))
    | .found members => do
      let others ← gatherZSetSources rest
      pure (others.map (members::·))

def zeroIfNaN (d : Double) : Double := if d.isNaN then .zero else d

def weighted (score weight : Double) : Double := zeroIfNaN (Platform.mul score weight)

def aggregateScores (how : Aggregate) (accumulated incoming : Double) : Double :=
  match how with
  | .sum => zeroIfNaN (Platform.add accumulated incoming)
  | .min => if incoming.lt accumulated then incoming else accumulated
  | .max => if accumulated.lt incoming then incoming else accumulated

def tally (how : Aggregate) (member : Bytes) (value : Double) :
    List (Bytes×Double) → List (Bytes×Double)
  | [] => [(member,value)]
  | e::rest =>
    if e.1=member then (e.1,aggregateScores how e.2 value)::rest else e::tally how member value rest

def unionTotals (how : Aggregate) (sources : List ZSetSource) : List (Bytes×Double) :=
  (sources.flatMap fun source => source.members.map fun e => (e.1,weighted e.2 source.weight)).foldl
    (fun totals e => tally how e.1 e.2 totals) []

def scoreOf (member : Bytes) (items : List (Bytes×Double)) : Option Double :=
  (items.find? (·.1==member)).map Prod.snd

def intersectTotal (how : Aggregate) (member : Bytes) :
    List ZSetSource → Double → Option Double
  | [],total => some total
  | source::rest,total =>
    match scoreOf member source.members with
    | none => none
    | some score =>
      intersectTotal how member rest (aggregateScores how total (weighted score source.weight))

/-- The members that all sources have, with their totals; the smallest source leads. -/
def intersectItems (how : Aggregate) (sources : List ZSetSource) : List (Bytes×Double) :=
  match sources.insertionSort fun a b => a.members.length ≤ b.members.length with
  | [] => []
  | front::others =>
    front.members.filterMap fun e =>
      (intersectTotal how e.1 others (weighted e.2 front.weight)).map (e.1,·)

def differenceItems : List ZSetSource → List (Bytes×Double)
  | [] => []
  | front::others =>
    front.members.filter fun e => !others.any fun other => (scoreOf e.1 other.members).isSome

def sortItems (items : List (Bytes×Double)) : List (Bytes×Double) :=
  items.insertionSort fun a b => !isBefore b.swap a.swap

def applyZSetOp (op : ZSetOp) (sources : List ZSetSource) (how : Aggregate) (limit : ℕ) :
    List (Bytes×Double) :=
  match op with
  | .union => sortItems (unionTotals how sources)
  | .intersect =>
    let result := intersectItems how sources
    if 0 < limit ∧ limit ≤ result.length then result.take limit else sortItems result
  | .difference => sortItems (differenceItems sources)

def zsetOpName (op : ZSetOp) (storing : Bool) : String :=
  match op with
  | .union => if storing then "zunionstore" else "zunion"
  | .intersect => if storing then "zinterstore" else "zinter"
  | .difference => if storing then "zdiffstore" else "zdiff"

/-- On the count and the number of arguments behind it. -/
def parseNumkeys (text : Bytes) (behind : ℕ) (command : String) : Except Response ℕ :=
  match stringToInt64 text with
  | none => .error .notAnInteger
  | some numkeys =>
    if numkeys < 1 then
      .error (.error (ascii "ERR at least 1 input key is needed for '"++ascii command++
        ascii "' command"))
    else if (behind : ℤ) < numkeys then .error .syntaxError
    else .ok numkeys.toNat

structure ZSetOpOptions where
  how : Aggregate
  withScores : Bool
  weights : List Double

def parseAggregate (mode : Bytes) : Option Aggregate :=
  if isWord mode "SUM" then some .sum
  else if isWord mode "MIN" then some .min
  else if isWord mode "MAX" then some .max
  else none

/-- The option loop of `zsetOpCommand`; the first number counts the words already used. -/
def zsetOpLoop (op : ZSetOp) (storing : Bool) (numkeys : ℕ) : ℕ → List Bytes → ZSetOpOptions →
    Except Response ZSetOpOptions
  | _,[],o => .ok o
  | used+1,_::rest,o => zsetOpLoop op storing numkeys used rest o
  | 0,token::rest,o =>
    if op≠.difference ∧ isWord token "WEIGHTS" ∧ numkeys ≤ rest.length then
      match (rest.take numkeys).mapM parseScore with
      | none => .error (.err "ERR weight value is not a float")
      | some weights => zsetOpLoop op storing numkeys numkeys rest { o with weights := weights }
    else if op≠.difference ∧ isWord token "AGGREGATE" ∧ rest≠[] then
      match parseAggregate (rest.headD []) with
      | none => .error .syntaxError
      | some how => zsetOpLoop op storing numkeys 1 rest { o with how := how }
    else if !storing && isWord token "WITHSCORES" then
      zsetOpLoop op storing numkeys 0 rest { o with withScores := true }
    else .error .syntaxError

def storeZSet (destination : Bytes) (op : ZSetOp) (result : List (Bytes×Double)) : Cmd Unit :=
  if result≠[] then do
    setKey destination .makeZSet
    let stored ← lookupWrite destination
    let filled ← random fun draws =>
      ZSetValue.addAll result ((stored.bind Value.zset).getD .empty,draws)
    store destination (.zset filled)
    notify Notify.kZset (zsetOpName op true) destination
  else do
    let erased ← eraseKey destination
    if erased then notify Notify.kGeneric "del" destination

/-- The keys are looked up before the options are parsed. -/
def zsetOpCommand (op : ZSetOp) (storing : Bool) (argv : List Bytes) : Cmd Response :=
  let index := if storing then 2 else 1
  let behind := argv.drop (index+1)
  match parseNumkeys (arg argv index) behind.length (zsetOpName op storing) with
  | .error e => pure e
  | .ok numkeys => do
    let gathered ← gatherZSetSources (behind.take numkeys)
    match gathered with
    | none => pure .wrongType
    | some members =>
      match zsetOpLoop op storing numkeys 0 (behind.drop numkeys)
          ⟨.sum,false,List.replicate numkeys .one⟩ with
      | .error e => pure e
      | .ok o =>
        let sources := members.zipWith ZSetSource.mk o.weights
        let result := applyZSetOp op sources o.how 0
        if !storing then emitMembers result o.withScores
        else
          storeZSet (arg argv 1) op result
          markDirty 1
          pure (.integer result.length)

def zunion (argv : List Bytes) : Cmd Response := zsetOpCommand .union false argv
def zinter (argv : List Bytes) : Cmd Response := zsetOpCommand .intersect false argv
def zdiff (argv : List Bytes) : Cmd Response := zsetOpCommand .difference false argv
def zunionstore (argv : List Bytes) : Cmd Response := zsetOpCommand .union true argv
def zinterstore (argv : List Bytes) : Cmd Response := zsetOpCommand .intersect true argv
def zdiffstore (argv : List Bytes) : Cmd Response := zsetOpCommand .difference true argv

def zintercard (argv : List Bytes) : Cmd Response :=
  let behind := argv.drop 2
  match parseNumkeys (arg argv 1) behind.length "zintercard" with
  | .error e => pure e
  | .ok numkeys =>
    match parseIntercardLimit (behind.drop numkeys) with
    | .error e => pure e
    | .ok limit => do
      let gathered ← gatherZSetSources (behind.take numkeys)
      match gathered with
      | none => pure .wrongType
      | some members =>
        let sources := members.map (ZSetSource.mk · .one)
        pure (.integer (applyZSetOp .intersect sources .sum limit).length)

/-- The arguments of `zmpop` behind the keys: which end and how many. -/
def parseZmpop : List Bytes → Except Response (Bool×ℕ)
  | [] => .error .syntaxError
  | where_::rest =>
    if !isWord where_ "MIN" && !isWord where_ "MAX" then .error .syntaxError
    else
      match rest with
      | [] => .ok (isWord where_ "MIN",1)
      | [word,text] =>
        if !isWord word "COUNT" then .error .syntaxError
        else
          match stringToInt64 text with
          | none => .error (.err "ERR count should be greater than 0")
          | some count =>
            if count ≤ 0 then .error (.err "ERR count should be greater than 0")
            else .ok (isWord where_ "MIN",count.toNat)
      | _ => .error .syntaxError

def zmpopReply (protover : ℕ) (key : Bytes) (popped : List (Bytes×Double)) : Response :=
  .tokens ([.arrayHeader 2,.bulk key,.arrayHeader popped.length]++popped.flatMap fun e =>
    [.arrayHeader 2,.bulk e.1,if 3 ≤ protover then .doubleValue e.2 else .bulk (formatDouble e.2)])

/-- The loop of `zmpop` over the keys: the first with a member wins. -/
def zmpopLoop (lowest : Bool) (count : ℕ) : List Bytes → Cmd Response
  | [] => pure (.token .nullArray)
  | key::rest => do
    let found ← lookupTyped key Value.zset
    match found with
    | .wrongType => pure .wrongType
    | .missing => zmpopLoop lowest count rest
    | .found z =>
      if z.size=0 then zmpopLoop lowest count rest
      else
        let popped := endPairs z lowest count
        store key (.zset (withoutPairs z popped))
        markDirty popped.length
        notify Notify.kZset (popEvent lowest) key
        deleteIfEmpty key (.zset (withoutPairs z popped))
        let protover ← protocolVersion
        pure (zmpopReply protover key popped)

def zmpop (argv : List Bytes) : Cmd Response :=
  match stringToInt64 (arg argv 1) with
  | none => pure (.err "ERR numkeys should be greater than 0")
  | some numkeys =>
    if numkeys ≤ 0 then pure (.err "ERR numkeys should be greater than 0")
    else if (argv.length : ℤ) ≤ numkeys then pure .syntaxError
    else
      match parseZmpop (argv.drop (numkeys.toNat+2)) with
      | .error e => pure e
      | .ok p => zmpopLoop p.1 p.2 ((argv.drop 2).take numkeys.toNat)

end Commands

end Mnemos
