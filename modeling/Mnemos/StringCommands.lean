import Mnemos.Keyspace
import Mnemos.Rdb

/-!
# String commands

The handlers of `server/commands/string_commands.cpp`. Options are parsed
before any key is looked up.
-/

namespace Mnemos

open Cmd

def Value.isString (v : Value) : Bool := v.type==.string

namespace Commands

def kMaxStringSize : ℤ := 512*1024*1024

structure ExpireOptions where
  set : Bool := false
  persist : Bool := false
  keepTtl : Bool := false
  atMs : ℤ := 0

inductive ParseResult where
  | notInteger
  | invalidExpire

def parseExpireToken (token value : Bytes) (now : ℤ) : Except ParseResult ℤ :=
  match stringToInt64 value with
  | none => .error .notInteger
  | some n =>
    let relative := isWord token "EX" || isWord token "PX"
    let seconds := isWord token "EX" || isWord token "EXAT"
    if relative && n ≤ 0 then .error .invalidExpire
    else if seconds && (int64Max/1000 < n || n < -(2^63/1000)) then .error .invalidExpire
    else
      let ms := if seconds then n*1000 else n
      .ok (if relative then int64 (now+ms) else ms)

def isExpireToken (t : Bytes) : Bool :=
  isWord t "EX" || isWord t "PX" || isWord t "EXAT" || isWord t "PXAT"

def ParseResult.response (command : String) : ParseResult → Response
  | .notInteger => .notAnInteger
  | .invalidExpire => .error (ascii "ERR invalid expire time in '"++ascii command++ascii "' command")

def applyExpire (key : Bytes) (opts : ExpireOptions) : Cmd Unit :=
  if opts.set then setExpireAt key opts.atMs
  else if opts.persist then do
    let _ ← persistKey key
  else if !opts.keepTtl then do
    let _ ← persistKey key
  else pure ()

structure SetOptions where
  nx : Bool := false
  xx : Bool := false
  get : Bool := false
  expire : ExpireOptions := {}

def parseSetOptions (now : ℤ) : List Bytes → SetOptions → Except Response SetOptions
  | [],o => .ok o
  | token::rest,o =>
    if isWord token "NX" then
      if o.xx then .error .syntaxError else parseSetOptions now rest { o with nx := true }
    else if isWord token "XX" then
      if o.nx then .error .syntaxError else parseSetOptions now rest { o with xx := true }
    else if isWord token "GET" then parseSetOptions now rest { o with get := true }
    else if isWord token "KEEPTTL" then
      if o.expire.set then .error .syntaxError
      else parseSetOptions now rest { o with expire := { o.expire with keepTtl := true } }
    else if isExpireToken token then
      match rest with
      | [] => .error .syntaxError
      | value::rest =>
        if o.expire.set || o.expire.keepTtl then .error .syntaxError
        else
          match parseExpireToken token value now with
          | .error e => .error (e.response "set")
          | .ok at_ =>
            parseSetOptions now rest
              { o with expire := { o.expire with set := true, atMs := at_ } }
    else .error .syntaxError

def wrongKind (v : Option Value) : Bool := v.any (!·.isString)

def textOrNull : Option Value → Response
  | some v => .bulk v.stringValue
  | none => .nullBulk

def set (argv : List Bytes) : Cmd Response := do
  let key := arg argv 1
  let now ← nowMs
  match parseSetOptions now (argv.drop 3) {} with
  | .error e => pure e
  | .ok o =>
    let existing ← lookupWrite key
    if o.get && wrongKind existing then pure .wrongType
    else
      if o.get then missIfNone key existing
      if (o.nx && existing.isSome) || (o.xx && existing.isNone) then
        pure (if o.get then textOrNull existing else .nullBulk)
      else
        overwriteValue key (.makeString (arg argv 2))
        applyExpire key o.expire
        markDirty 1
        notify Notify.kString "set" key
        if o.expire.set then notify Notify.kGeneric "expire" key
        pure (if o.get then textOrNull existing else .ok)

def get (argv : List Bytes) : Cmd Response := do
  let key := arg argv 1
  let found ← lookupRead key
  match found with
  | none =>
    countMiss
    notifyKeyMiss key
    pure .nullBulk
  | some v =>
    if !v.isString then pure .wrongType
    else
      countHit
      pure (.bulk v.stringValue)

def getset (argv : List Bytes) : Cmd Response := do
  let key := arg argv 1
  let existing ← lookupWrite key
  if wrongKind existing then pure .wrongType
  else
    missIfNone key existing
    setKey key (.makeString (arg argv 2))
    markDirty 1
    notify Notify.kString "set" key
    pure (textOrNull existing)

def getdel (argv : List Bytes) : Cmd Response := do
  let key := arg argv 1
  let existing ← lookupWrite key
  match existing with
  | none =>
    notifyKeyMiss key
    pure .nullBulk
  | some v =>
    if !v.isString then pure .wrongType
    else
      let _ ← eraseKey key
      markDirty 1
      notify Notify.kGeneric "del" key
      pure (.bulk v.stringValue)

def parseGetexOptions (now : ℤ) : List Bytes → ExpireOptions → Except Response ExpireOptions
  | [],o => .ok o
  | token::rest,o =>
    if isWord token "PERSIST" then
      if o.set then .error .syntaxError else parseGetexOptions now rest { o with persist := true }
    else if isExpireToken token then
      match rest with
      | [] => .error .syntaxError
      | value::rest =>
        if o.set || o.persist then .error .syntaxError
        else
          match parseExpireToken token value now with
          | .error e => .error (e.response "getex")
          | .ok at_ => parseGetexOptions now rest { o with set := true, atMs := at_ }
    else .error .syntaxError

/-- Actual `getex`. A deadline that is not after now deletes the key. -/
def getex (argv : List Bytes) : Cmd Response := do
  let key := arg argv 1
  let now ← nowMs
  match parseGetexOptions now (argv.drop 2) {} with
  | .error e => pure e
  | .ok o =>
    let found ← lookupRead key
    match found with
    | none =>
      notifyKeyMiss key
      pure .nullBulk
    | some v =>
      if !v.isString then pure .wrongType
      else if o.set then
        if o.atMs ≤ now then
          let _ ← eraseKey key
          markDirty 1
          notify Notify.kGeneric "del" key
          pure (.bulk v.stringValue)
        else
          setExpireAt key o.atMs
          markDirty 1
          notify Notify.kGeneric "expire" key
          pure (.bulk v.stringValue)
      else if o.persist then
        let had ← persistKey key
        if had then
          markDirty 1
          notify Notify.kGeneric "persist" key
          pure (.bulk v.stringValue)
        else pure (.bulk v.stringValue)
      else pure (.bulk v.stringValue)

def setnx (argv : List Bytes) : Cmd Response := do
  let key := arg argv 1
  let existing ← lookupWrite key
  if existing.isSome then pure (.integer 0)
  else
    setKey key (.makeString (arg argv 2))
    markDirty 1
    notify Notify.kString "set" key
    pure (.integer 1)

def setexGeneric (unitMultiplier : ℤ) (name : String) (argv : List Bytes) : Cmd Response :=
  let key := arg argv 1
  match stringToInt64 (arg argv 2) with
  | none => pure .notAnInteger
  | some ttl =>
    if ttl ≤ 0 || int64Max/unitMultiplier < ttl then
      pure (ParseResult.invalidExpire.response name)
    else do
      let now ← nowMs
      setKey key (.makeString (arg argv 3))
      setExpireAt key (int64 (now+ttl*unitMultiplier))
      markDirty 1
      notify Notify.kString "set" key
      notify Notify.kGeneric "expire" key
      pure .ok

def setex (argv : List Bytes) : Cmd Response := setexGeneric 1000 "setex" argv

def psetex (argv : List Bytes) : Cmd Response := setexGeneric 1 "psetex" argv

def setPairs : List Bytes → Cmd Unit
  | key::value::rest => do
    setKey key (.makeString value)
    notify Notify.kString "set" key
    setPairs rest
  | _ => pure ()

def mset (argv : List Bytes) : Cmd Response :=
  if (argv.length-1)%2≠0 then pure (.wrongArgs "mset")
  else do
    setPairs (argv.drop 1)
    markDirty ((argv.length-1)/2)
    pure .ok

/-- The check of `msetnx`: whether one of the keys is there. -/
def anyKey : List Bytes → Cmd Bool
  | key::_::rest => do
    let existing ← lookupWrite key
    if existing.isSome then pure true else anyKey rest
  | _ => pure false

def msetnx (argv : List Bytes) : Cmd Response :=
  if (argv.length-1)%2≠0 then pure (.wrongArgs "msetnx")
  else do
    let taken ← anyKey (argv.drop 1)
    if taken then pure (.integer 0)
    else
      setPairs (argv.drop 1)
      markDirty ((argv.length-1)/2)
      pure (.integer 1)

def stringToken : Option Value → Token
  | none => .nullBulk
  | some v => if v.isString then .bulk v.stringValue else .nullBulk

def mgetLoop : List Bytes → Cmd (List Token)
  | [] => pure []
  | key::rest => do
    let found ← lookupRead key
    missIfNone key found
    let tokens ← mgetLoop rest
    pure (stringToken found::tokens)

def mget (argv : List Bytes) : Cmd Response := do
  let tokens ← mgetLoop (argv.drop 1)
  pure (.tokens (.arrayHeader (argv.length-1)::tokens))

def tooLong : Response := .err "ERR string exceeds maximum allowed size (proto-max-bulk-len)"

def append (argv : List Bytes) : Cmd Response := do
  let key := arg argv 1
  let suffix := arg argv 2
  let existing ← lookupWrite key
  match existing with
  | none =>
    setKey key (.makeRawString suffix)
    markDirty 1
    notify Notify.kString "append" key
    pure (.integer suffix.length)
  | some v =>
    if !v.isString then pure .wrongType
    else if kMaxStringSize < v.stringLength+suffix.length then pure tooLong
    else
      store key (v.appendString suffix).data
      markDirty 1
      notify Notify.kString "append" key
      pure (.integer (v.appendString suffix).stringLength)

def strlen_ (argv : List Bytes) : Cmd Response := do
  let key := arg argv 1
  let found ← lookupRead key
  match found with
  | none =>
    notifyKeyMiss key
    pure (.integer 0)
  | some v => if !v.isString then pure .wrongType else pure (.integer v.stringLength)

def sumOverflows (current delta : ℤ) : Bool :=
  (0 < delta && int64Max-delta < current) || (delta < 0 && current < int64Min-delta)

def startNumber : Option Value → Option ℤ
  | none => some 0
  | some v => v.asInt

def incrDecrBy (delta : ℤ) (argv : List Bytes) : Cmd Response := do
  let key := arg argv 1
  let found ← lookupWrite key
  if wrongKind found then pure .wrongType
  else
    match startNumber found with
    | none => pure .notAnInteger
    | some current =>
      if sumOverflows current delta then
        pure (.err "ERR increment or decrement would overflow")
      else
        overwriteValue key (.makeInt (current+delta))
        markDirty 1
        notify Notify.kString "incrby" key
        pure (.integer (current+delta))

def incr (argv : List Bytes) : Cmd Response := incrDecrBy 1 argv

def decr (argv : List Bytes) : Cmd Response := incrDecrBy (-1) argv

def incrby (argv : List Bytes) : Cmd Response :=
  match stringToInt64 (arg argv 2) with
  | none => pure .notAnInteger
  | some delta => incrDecrBy delta argv

def decrby (argv : List Bytes) : Cmd Response :=
  match stringToInt64 (arg argv 2) with
  | none => pure .notAnInteger
  | some delta =>
    if delta=int64Min then pure (.err "ERR decrement would overflow")
    else incrDecrBy (-delta) argv

/-- Bytes written over a string at an offset, with zeros in between where it is too short. -/
def patchString (offset : ℕ) (patch data : Bytes) : Bytes :=
  let sized := data++List.replicate (offset+patch.length-data.length) 0
  sized.take offset++patch++sized.drop (offset+patch.length)

def stringToChange (key : Bytes) : Option Value → Cmd Value
  | some v => pure v
  | none => do
    setKey key (.makeRawString [])
    let found ← lookupWrite key
    pure (found.getD (.makeRawString []))

/-- Actual `setrange`. The sum of offset and length is taken in `int64`; a size that no string can
have makes `resize` throw. -/
def setrange (argv : List Bytes) : Cmd Response :=
  let key := arg argv 1
  let patch := arg argv 3
  match stringToInt64 (arg argv 2) with
  | none => pure .notAnInteger
  | some offset =>
    if offset < 0 then pure (.err "ERR offset is out of range")
    else do
      let found ← lookupWrite key
      if wrongKind found then pure .wrongType
      else if patch=[] then pure (.integer ((found.map Value.stringLength).getD 0))
      else if kMaxStringSize < int64 (offset+patch.length) then pure tooLong
      else
        let v ← stringToChange key found
        if Rdb.stringMaxSize < offset.toNat+patch.length then pure .terminated
        else
          let changed := v.mutateString (patchString offset.toNat patch)
          store key changed.data
          markDirty 1
          notify Notify.kString "setrange" key
          pure (.integer changed.stringLength)

/-- A bound of `getrange`; negative numbers count from the end. -/
def fromEnd (length i : ℤ) : ℤ := if i < 0 then max (length+i) 0 else i

def substringRange (data : Bytes) (start stop : ℤ) : Bytes :=
  let length : ℤ := data.length
  let first := fromEnd length start
  let last := min (fromEnd length stop) (length-1)
  if length=0 || last < first || length ≤ first then []
  else (data.drop first.toNat).take (last-first+1).toNat

def getrange (argv : List Bytes) : Cmd Response :=
  let key := arg argv 1
  match stringToInt64 (arg argv 2),stringToInt64 (arg argv 3) with
  | some start,some stop => do
    let found ← lookupRead key
    match found with
    | none =>
      notifyKeyMiss key
      pure (.bulk [])
    | some v =>
      if !v.isString then pure .wrongType
      else pure (.bulk (substringRange v.stringValue start stop))
  | _,_ => pure .notAnInteger

section Float

variable [Platform]

def startLong : Option Value → Option LongDouble
  | none => some Platform.zeroLong
  | some v => parseLongDouble v.stringValue

def incrbyfloat (argv : List Bytes) : Cmd Response := do
  let key := arg argv 1
  let found ← lookupWrite key
  if wrongKind found then pure .wrongType
  else
    match parseLongDouble (arg argv 2),startLong found with
    | some increment,some current =>
      let result := Platform.addLong current increment
      if Platform.isNaNLong result || Platform.isInfLong result then
        pure (.err "ERR increment would produce NaN or Infinity")
      else
        overwriteValue key (.makeString (formatLongDouble result))
        markDirty 1
        notify Notify.kString "incrbyfloat" key
        pure (.bulk (formatLongDouble result))
    | _,_ => pure .notAFloat

end Float

end Commands

end Mnemos

/-! ## Bounds of SETRANGE -/

open List

namespace Mnemos.Commands

/-- The string with the patch written over it at the offset. -/
structure Patched (old : Bytes) (offset : ℕ) (patch new : Bytes) : Prop where
  length : new.length=max old.length (offset+patch.length)
  patched : ∀ i < patch.length,new[offset+i]?=patch[i]?
  kept : ∀ i < old.length,i < offset ∨ offset+patch.length ≤ i → new[i]?=old[i]?
  filled : ∀ i,old.length ≤ i → i < offset → new[i]?=some 0

theorem patched_patchString (old : Bytes) (offset : ℕ) (patch : Bytes) :
    Patched old offset patch (patchString offset patch old) := by
  unfold patchString
  dsimp only
  generalize hsized : old++replicate (offset+patch.length-old.length) 0=sized
  have hlength : sized.length=max old.length (offset+patch.length) := by
    rw [←hsized,length_append,length_replicate]
    omega
  have hold : ∀ i < old.length,sized[i]?=old[i]? := fun i hi => by
    rw [←hsized,getElem?_append_left hi]
  have hfront : (sized.take offset).length=offset := by
    rw [length_take]
    omega
  constructor
  · rw [length_append,length_append,hfront,length_drop]
    omega
  · intro i hi
    rw [getElem?_append_left (by rw [length_append]; omega),
      getElem?_append_right (by omega),hfront,Nat.add_sub_cancel_left]
  · intro i hi hside
    rw [←hold i hi,append_assoc]
    rcases hside with hlow | hhigh
    · rw [getElem?_append_left (by omega),getElem?_take_of_lt hlow]
    · rw [getElem?_append_right (by omega),getElem?_append_right (by omega),hfront,
        getElem?_drop]
      congr 1
      omega
  · intro i hi hlow
    rw [append_assoc,getElem?_append_left (by omega),getElem?_take_of_lt hlow,
      ←hsized,getElem?_append_right hi,getElem?_replicate,if_pos (by omega)]

section Setrange

variable (ctx : Context) (s : Keyspace) (argv : List Bytes)

def stored : Option Value := ((s.slots (ctx.db,arg argv 1)).live ctx.now).map (Value.mk · ctx.now)

def storedText : Bytes := ((stored ctx s argv).map Value.stringValue).getD []

/-- An error that changes nothing, or the patched string within the limit and its length. -/
def Answers (offset : ℕ) : Prop :=
  ((setrange argv ctx s).1.isError=true ∧ Unchanged ctx.now s.slots (setrange argv ctx s).2.slots) ∨
  ∃ new,Patched (storedText ctx s argv) offset (arg argv 3) new ∧ new.length ≤ kMaxStringSize ∧
    (setrange argv ctx s).1=.integer new.length ∧
    ((setrange argv ctx s).2.slots (ctx.db,arg argv 1)).value=some (.raw new) ∧
    ∀ p≠(ctx.db,arg argv 1),(setrange argv ctx s).2.slots p=s.slots p

theorem stringToChange_spec (key : Bytes) :
    (stringToChange key (Cmd.lookupWrite key ctx s).1 ctx (Cmd.lookupWrite key ctx s).2).1.stringValue=
      (((Cmd.lookupWrite key ctx s).1.map Value.stringValue).getD []) ∧
    ((stringToChange key (Cmd.lookupWrite key ctx s).1 ctx
      (Cmd.lookupWrite key ctx s).2).2.slots (ctx.db,key)).value.isSome=true ∧
    ∀ p≠(ctx.db,key),(stringToChange key (Cmd.lookupWrite key ctx s).1 ctx
      (Cmd.lookupWrite key ctx s).2).2.slots p=s.slots p := by
  have hlookup := (Cmd.lookupWrite_effect key ctx s).slots_eq
  have hvalue := Cmd.lookupWrite_fst key ctx s
  rw [←purged_value,←hlookup] at hvalue
  have hother : ∀ p≠(ctx.db,key),(Cmd.lookupWrite key ctx s).2.slots p=s.slots p := fun p hp => by
    rw [hlookup,purged_of_ne hp]
  cases hfound : (Cmd.lookupWrite key ctx s).1 with
  | some v =>
    rw [hfound] at hvalue
    refine ⟨rfl,?_,hother⟩
    obtain ⟨data,hdata,-⟩ := Option.map_eq_some_iff.mp hvalue.symm
    exact Option.isSome_iff_exists.mpr ⟨data,hdata⟩
  | none =>
    -- the new empty string has no deadline, so that the second lookup finds it
    rw [stringToChange,Cmd.bind_apply,Cmd.bind_apply,Cmd.pure_apply]
    generalize (Cmd.lookupWrite key ctx s).2=s' at hother
    have hset := (Cmd.setKey_effect key ctx s' (.makeRawString [])).slots_eq
    generalize (Cmd.setKey key (.makeRawString []) ctx s').2=t at hset
    have hslot : t.slots (ctx.db,key)=⟨some (.raw []),none⟩ := by
      rw [hset,Function.update_self]
      rfl
    have hdue : ¬(t.slots (ctx.db,key)).Due ctx.now := by
      rw [hslot]
      exact Slot.not_due_empty
    have hagain := (Cmd.lookupWrite_effect key ctx t).slots_eq
    rw [purged_of_not_due hdue] at hagain
    have hlive : (t.slots (ctx.db,key)).live ctx.now=some (.raw []) := by
      rw [Slot.live,if_neg hdue,hslot]
    rw [hagain,Cmd.lookupWrite_fst,hlive,hslot]
    refine ⟨rfl,rfl,fun p hp => ?_⟩
    rw [hset,Function.update_of_ne hp,hother p hp]

variable {ctx s argv} {offset : ℤ} (hoffset : stringToInt64 (arg argv 2)=some offset)
  (hpos : 0 ≤ offset) (hpatch : arg argv 3≠[]) (hkind : wrongKind (stored ctx s argv)=false)
include hoffset hpos hpatch hkind

theorem setrange_eq : setrange argv ctx s=
    if kMaxStringSize < int64 (offset+(arg argv 3).length) then
      (tooLong,(Cmd.lookupWrite (arg argv 1) ctx s).2)
    else
      let v := stringToChange (arg argv 1) (Cmd.lookupWrite (arg argv 1) ctx s).1 ctx
        (Cmd.lookupWrite (arg argv 1) ctx s).2
      if Rdb.stringMaxSize < offset.toNat+(arg argv 3).length then (.terminated,v.2)
      else
        let changed := v.1.mutateString (patchString offset.toNat (arg argv 3))
        (.integer changed.stringLength,
          (Cmd.notify Notify.kString "setrange" (arg argv 1) ctx
            (Cmd.markDirty 1 ctx (Cmd.store (arg argv 1) changed.data ctx v.2).2).2).2) := by
  have hlookup : (Cmd.lookupWrite (arg argv 1) ctx s).1=stored ctx s argv :=
    Cmd.lookupWrite_fst _ _ _
  rw [setrange]
  dsimp only
  rw [hoffset]
  dsimp only
  rw [if_neg (not_lt.mpr hpos),Cmd.bind_apply,hlookup,hkind,if_neg Bool.false_ne_true,
    if_neg hpatch]
  split
  · rfl
  · rw [Cmd.bind_apply]
    split <;> rfl

theorem answers_iff_of_le (hsum : offset+(arg argv 3).length ≤ kMaxStringSize) :
    Answers ctx s argv offset.toNat ↔ ((storedText ctx s argv).length : ℤ) ≤ kMaxStringSize := by
  have hmax : kMaxStringSize=2^29 := by decide
  have hsmall : int64 (offset+(arg argv 3).length)=offset+(arg argv 3).length := by
    unfold int64
    rw [Int.bmod_eq_of_le (by omega) (by omega)]
  have hroom : ¬Rdb.stringMaxSize < offset.toNat+(arg argv 3).length := by
    unfold Rdb.stringMaxSize
    omega
  obtain ⟨htext,hsome,hother⟩ := stringToChange_spec ctx s (arg argv 1)
  rw [Answers,setrange_eq hoffset hpos hpatch hkind,hsmall,if_neg (not_lt.mpr hsum)]
  dsimp only
  rw [if_neg hroom]
  generalize hv : stringToChange (arg argv 1) (Cmd.lookupWrite (arg argv 1) ctx s).1 ctx
    (Cmd.lookupWrite (arg argv 1) ctx s).2=v at htext hsome hother
  rw [Cmd.lookupWrite_fst] at htext
  have hpatched := patched_patchString (storedText ctx s argv) offset.toNat (arg argv 3)
  have hchanged : (v.1.mutateString (patchString offset.toNat (arg argv 3))).data=
      .raw (patchString offset.toNat (arg argv 3) (storedText ctx s argv)) := by
    rw [Value.mutateString,htext]
    rfl
  generalize patchString offset.toNat (arg argv 3) (storedText ctx s argv)=new at hpatched hchanged
  have hlength : (v.1.mutateString (patchString offset.toNat (arg argv 3))).stringLength=
      new.length := by
    rw [Value.stringLength,hchanged]
  have hslots := (Cmd.store_effect (arg argv 1) ctx v.2 (.raw new)).slots_eq
  rw [hchanged,hlength]
  change (_ ∧ _) ∨ (∃ text,_ ∧ _ ∧ _ ∧ ((Cmd.store (arg argv 1) (.raw new) ctx v.2).2.slots _).value=
    _ ∧ ∀ p≠_,(Cmd.store (arg argv 1) (.raw new) ctx v.2).2.slots p=_) ↔ _
  rw [hslots]
  have hnew := hpatched.length
  constructor
  · rintro (⟨herror,-⟩ | ⟨text,htext',hle,hreply,-⟩)
    · cases herror
    · have hlen := htext'.length
      omega
  · intro hold
    refine .inr ⟨new,hpatched,by omega,rfl,?_,fun p hp => ?_⟩
    · rw [Function.update_self]
      obtain ⟨data,hdata⟩ := Option.isSome_iff_exists.mp hsome
      dsimp only
      rw [hdata]
      rfl
    · rw [Function.update_of_ne hp,hother p hp]

theorem setrange_terminated (hsize : (arg argv 3).length < 2^63) (hfits : offset < 2^63)
    (hsum : 2^63 ≤ offset+(arg argv 3).length) : (setrange argv ctx s).1=.terminated := by
  have hmax : kMaxStringSize=2^29 := by decide
  have hwrap : int64 (offset+(arg argv 3).length) < 0 := by
    unfold int64
    rw [Int.bmod_def]
    omega
  have hroom : Rdb.stringMaxSize < offset.toNat+(arg argv 3).length := by
    unfold Rdb.stringMaxSize
    omega
  rw [setrange_eq hoffset hpos hpatch hkind,if_neg (by omega)]
  dsimp only
  rw [if_pos hroom]

theorem answers_of_lt (hsum : kMaxStringSize < offset+(arg argv 3).length)
    (hfits : offset+(arg argv 3).length < 2^63) : Answers ctx s argv offset.toNat := by
  have hsmall : int64 (offset+(arg argv 3).length)=offset+(arg argv 3).length := by
    unfold int64
    rw [Int.bmod_eq_of_le (by omega) (by omega)]
  refine .inl ?_
  rw [setrange_eq hoffset hpos hpatch hkind,hsmall,if_pos hsum,
    (Cmd.lookupWrite_effect _ _ _).slots_eq]
  exact ⟨rfl,unchanged_purged⟩

/-- **SETRANGE**: the command refuses and changes nothing, or patches the string and answers with
its length of at most 512 MB, exactly when offset and patch length sum up to less than 2^63 and a
patch within the limit meets a string within the limit. -/
theorem setrange_bounds (hsize : (arg argv 3).length < 2^63) :
    Answers ctx s argv offset.toNat ↔ offset+(arg argv 3).length < 2^63 ∧
      (offset+(arg argv 3).length ≤ kMaxStringSize →
        ((storedText ctx s argv).length : ℤ) ≤ kMaxStringSize) := by
  by_cases hsum : offset+(arg argv 3).length ≤ kMaxStringSize
  · have hmax : kMaxStringSize=2^29 := by decide
    rw [answers_iff_of_le hoffset hpos hpatch hkind hsum]
    exact ⟨fun hold => ⟨by omega,fun _ => hold⟩,fun h => h.2 hsum⟩
  by_cases hfits : offset+(arg argv 3).length < 2^63
  · exact ⟨fun _ => ⟨hfits,fun hle => absurd hle hsum⟩,
      fun _ => answers_of_lt hoffset hpos hpatch hkind (not_le.mp hsum) hfits⟩
  · have hoffset63 : offset < 2^63 := (stringToInt64_eq_some.mp hoffset).2.2
    have hend := setrange_terminated hoffset hpos hpatch hkind hsize hoffset63 (not_lt.mp hfits)
    refine ⟨?_,fun h => absurd h.1 hfits⟩
    rintro (⟨herror,-⟩ | ⟨new,-,-,hreply,-⟩)
    · rw [hend] at herror
      cases herror
    · rw [hend] at hreply
      cases hreply

end Setrange

theorem setrange_bounds_missing :
    Answers ⟨0,0,2⟩ blank [ascii "SETRANGE",ascii "k",ascii "5",ascii "x"] 5 := by
  have hoffset : stringToInt64 (arg [ascii "SETRANGE",ascii "k",ascii "5",ascii "x"] 2)=some 5 := by
    decide +kernel
  exact (setrange_bounds hoffset (by decide) (by decide) (by decide +kernel) (by decide)).mpr
    ⟨by decide,fun _ => by decide +kernel⟩

/-- The largest offset: no error, and the process ends. -/
theorem setrange_wraps :
    (setrange [ascii "SETRANGE",ascii "k",ascii "9223372036854775807",ascii "x"] ⟨0,0,2⟩
      blank).1=.terminated := by
  have hoffset : stringToInt64 (arg [ascii "SETRANGE",ascii "k",ascii "9223372036854775807",
      ascii "x"] 2)=some (2^63-1) := by decide +kernel
  exact setrange_terminated hoffset (by decide) (by decide) (by decide +kernel) (by decide)
    (by decide) (by decide)

end Mnemos.Commands
