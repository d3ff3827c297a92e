import Mnemos.Bytes

/-!
# The primitive types of the Kafka protocol

The bounds-checked reader and the writer of `kafka/wire.cpp`. A reader that
would run past the end sets its failure flag, answers zero and goes on, so a
caller may read a whole structure and ask once.
-/

namespace Mnemos.Kafka

open List

inductive ApiKey where
  | produce | fetch | listOffsets | metadata | apiVersions
deriving DecidableEq,Repr

def ApiKey.value : ApiKey → ℤ
  | produce => 0
  | fetch => 1
  | listOffsets => 2
  | metadata => 3
  | apiVersions => 18

inductive ErrorCode where
  | none | offsetOutOfRange | unknownTopicOrPartition | unsupportedVersion | invalidRequest
  | kafkaStorageError | unsupportedCompression
deriving DecidableEq,Repr

def ErrorCode.value : ErrorCode → ℤ
  | none => 0
  | offsetOutOfRange => 1
  | unknownTopicOrPartition => 3
  | unsupportedVersion => 35
  | invalidRequest => 42
  | kafkaStorageError => 56
  | unsupportedCompression => 76

/-- The bytes before `pos_` are not kept. -/
structure Reader where
  left : Bytes
  position : ℕ := 0
  ok : Bool := true
deriving DecidableEq

abbrev Decode := StateM Reader

namespace Reader

def remaining (r : Reader) : ℕ := if r.ok then r.left.length else 0

def advance (r : Reader) (n : ℕ) : Reader :=
  { r with left := r.left.drop n, position := r.position+n }

def fail : Decode Unit := modify fun r => { r with ok := false }

def need (n : ℕ) : Decode Bool := fun r =>
  if r.ok=false then (false,r)
  else if r.left.length < n then (false,{ r with ok := false })
  else (true,r)

def take (n : ℕ) : Decode (Option Bytes) := fun r =>
  if (need n r).1 then (some (r.left.take n),r.advance n) else (none,(need n r).2)

def unsigned (width : ℕ) : Decode ℕ := do return (← take width).elim 0 beValue

def int8 : Decode ℤ := do return toSigned 8 (← unsigned 1)

def int16 : Decode ℤ := do return toSigned 16 (← unsigned 2)

def uint32 : Decode ℕ := unsigned 4

def int32 : Decode ℤ := do return toSigned 32 (← uint32)

def int64 : Decode ℤ := do return toSigned 64 (← unsigned 8)

def boolean : Decode Bool := do return (← int8)≠0

/-- The signed number of a zigzag value: an odd one is the complement of its half. -/
def unzigzag (raw : ℕ) : ℤ := if raw%2=0 then (raw/2 : ℕ) else -(raw/2 : ℕ)-1

/-- The loop of `varlong` from the value and the shift so far. There are ten shifts up to 63: a
continuation byte at the tenth makes it pass that bound. -/
def varlongFrom : ℕ → ℕ → ℕ → Decode ℤ
  | 0,_,_ => do
    fail
    pure 0
  | passes+1,raw,shift => do
    match (← take 1).bind List.head? with
    | some byte =>
      let raw := raw ||| (byte.toNat%128*2^shift)%2^64
      if byte.toNat < 128 then pure (unzigzag raw) else varlongFrom passes raw (shift+7)
    | none => pure 0

def varlong : Decode ℤ := varlongFrom 10 0 0

def varint : Decode ℤ := do
  let v ← varlong
  if FitsSigned 32 v then pure v
  else
    fail
    pure 0

/-- None for null and for a failure. -/
def nullableString : Decode (Option Bytes) := do
  let len ← int16
  if (← get).ok=false ∨ len < 0 then pure none else take len.toNat

def string : Decode Bytes := do return (← nullableString).getD []

def nullableBytes : Decode (Option Bytes) := do
  let len ← int32
  if (← get).ok=false ∨ len < 0 then pure none else take len.toNat

def arrayLen : Decode (ℕ×Bool) := do
  let n ← int32
  if n < 0 then pure (0,true)
  else if (← get).remaining < n.toNat then
    fail
    pure (0,false)
  else pure (n.toNat,false)

def takeView (n : ℕ) : Decode (Option Bytes) := take n

/-- With `is_null`: none if it returns false. -/
def varintBytes : Decode (Option (Bytes×Bool)) := do
  let len ← varint
  if (← get).ok=false then pure none
  else if len < 0 then pure (some ([],true))
  else return (← takeView len.toNat).map (·,false)

end Reader

namespace Writer

def int8 (v : ℤ) : Bytes := beBytes 1 (toUnsigned 8 v)

def int16 (v : ℤ) : Bytes := beBytes 2 (toUnsigned 16 v)

def uint32 (u : ℕ) : Bytes := beBytes 4 u

def int32 (v : ℤ) : Bytes := uint32 (toUnsigned 32 v)

def int64 (v : ℤ) : Bytes := beBytes 8 (toUnsigned 64 v)

def boolean (v : Bool) : Bytes := int8 (if v then 1 else 0)

def zigzag (v : ℤ) : ℕ := if 0 ≤ v then (2*v).toNat else (-2*v-1).toNat

/-- The loop of `varlong`, with the passes a value of 64 bits can need after the first. -/
def groups : ℕ → ℕ → Bytes
  | 0,raw => [UInt8.ofNat raw]
  | passes+1,raw =>
    if 128 ≤ raw then UInt8.ofNat (raw%128+128)::groups passes (raw/128) else [UInt8.ofNat raw]

def varlong (v : ℤ) : Bytes := groups 9 (zigzag v)

def varint (v : ℤ) : Bytes := varlong (toSigned 32 (toUnsigned 32 v))

def string (v : Bytes) : Bytes := int16 v.length++v

def nullString : Bytes := int16 (-1)

def bytes (v : Bytes) : Bytes := int32 v.length++v

def nullBytes : Bytes := int32 (-1)

def arrayLen (n : ℤ) : Bytes := int32 n

def errorCode (e : ErrorCode) : Bytes := int16 e.value

def patchUint32 (buf : Bytes) (at_ u : ℕ) : Bytes :=
  buf.take at_++uint32 u++buf.drop (at_+4)

def patchInt32 (buf : Bytes) (at_ : ℕ) (v : ℤ) : Bytes := patchUint32 buf at_ (toUnsigned 32 v)

@[simp] theorem int8_length (v : ℤ) : (int8 v).length=1 := beBytes_length 1 _

@[simp] theorem int16_length (v : ℤ) : (int16 v).length=2 := beBytes_length 2 _

@[simp] theorem uint32_length (u : ℕ) : (uint32 u).length=4 := beBytes_length 4 _

@[simp] theorem int32_length (v : ℤ) : (int32 v).length=4 := uint32_length _

@[simp] theorem int64_length (v : ℤ) : (int64 v).length=8 := beBytes_length 8 _

theorem patchUint32_append {a b c : Bytes} {n u : ℕ} (ha : a.length=n) (hb : b.length=4) :
    patchUint32 (a++(b++c)) n u=a++(uint32 u++c) := by
  have hdrop : (a++(b++c)).drop (n+4)=c := by
    rw [← append_assoc]
    exact drop_left' (by rw [length_append,ha,hb])
  rw [patchUint32,take_left' ha,hdrop,append_assoc]

end Writer

/-! ## What a reader takes -/

/-- The reader takes exactly these bytes and returns this value, whatever follows. -/
def Takes {A : Type} (p : Decode A) (bytes : Bytes) (a : A) : Prop :=
  ∀ rest position,p ⟨bytes++rest,position,true⟩=(a,⟨rest,position+bytes.length,true⟩)

namespace Takes

variable {A B : Type}

theorem pure (a : A) : Takes (Pure.pure a) [] a := fun _ _ => rfl

theorem bind {p : Decode A} {f : A → Decode B} {s t : Bytes} {a : A} {b : B}
    (hp : Takes p s a) (hf : Takes (f a) t b) : Takes (p >>= f) (s++t) b := by
  intro rest position
  change f (p ⟨s++t++rest,position,true⟩).1 (p ⟨s++t++rest,position,true⟩).2=_
  rw [append_assoc,hp (t++rest) position,length_append,← Nat.add_assoc]
  exact hf rest (position+s.length)

theorem finish {p : Decode A} {f : A → Decode B} {s : Bytes} {a : A} {b : B}
    (hp : Takes p s a) (hf : Takes (f a) [] b) : Takes (p >>= f) s b := by
  have h : Takes (p >>= f) (s++[]) b := hp.bind hf
  rwa [append_nil] at h

theorem map {p : Decode A} {s : Bytes} {a : A} (hp : Takes p s a) (f : A → B) :
    Takes (p >>= fun x => Pure.pure (f x)) s (f a) := hp.finish (pure (f a))

theorem look {p : Reader → Decode A} {q : Decode A} {s : Bytes} {a : A} (hq : Takes q s a)
    (h : ∀ r : Reader,r.ok=true → s.length ≤ r.remaining → p r=q) : Takes (get >>= p) s a := by
  intro rest position
  change p ⟨s++rest,position,true⟩ ⟨s++rest,position,true⟩=_
  have hthere : s.length ≤ (⟨s++rest,position,true⟩ : Reader).remaining := by
    rw [Reader.remaining,if_pos rfl,length_append]
    omega
  rw [h _ rfl hthere]
  exact hq rest position

end Takes

namespace Reader

variable {v : ℤ} {s : Bytes}

theorem take_takes {n : ℕ} (h : s.length=n) : Takes (take n) s (some s) := by
  intro rest position
  have hneed : need n ⟨s++rest,position,true⟩=(true,⟨s++rest,position,true⟩) := by
    rw [need,if_neg (by simp),if_neg (by rw [length_append]; omega)]
  rw [take,hneed,if_pos rfl,advance,take_left' h,drop_left' h,h]

theorem unsigned_takes {width n : ℕ} (h : n < 256^width) :
    Takes (unsigned width) (beBytes width n) n := by
  have hread := (take_takes (beBytes_length width n)).map fun o => o.elim 0 beValue
  rwa [Option.elim_some,beValue_beBytes_of_lt h] at hread

theorem signed_takes (width : ℕ) (v : ℤ) :
    Takes (unsigned width >>= fun n => Pure.pure (toSigned (8*width) n))
      (beBytes width (toUnsigned (8*width) v)) (toSigned (8*width) (toUnsigned (8*width) v)) := by
  have hlt := toUnsigned_lt (8*width) v
  rw [← pow_bytes] at hlt
  exact (unsigned_takes hlt).map (toSigned (8*width))

theorem fitting_takes (width : ℕ) (hwidth : 0 < width) (h : FitsSigned (8*width) v) :
    Takes (unsigned width >>= fun n => Pure.pure (toSigned (8*width) n))
      (beBytes width (toUnsigned (8*width) v)) v := by
  have hread := signed_takes width v
  rwa [toSigned_toUnsigned (by omega) h] at hread

theorem int8_takes (h : FitsSigned 8 v) : Takes int8 (Writer.int8 v) v :=
  fitting_takes 1 (by decide) h

theorem int16_takes (h : FitsSigned 16 v) : Takes int16 (Writer.int16 v) v :=
  fitting_takes 2 (by decide) h

theorem int32_takes (h : FitsSigned 32 v) : Takes int32 (Writer.int32 v) v :=
  fitting_takes 4 (by decide) h

theorem int64_takes_any (v : ℤ) :
    Takes int64 (Writer.int64 v) (toSigned 64 (toUnsigned 64 v)) := signed_takes 8 v

theorem int64_takes (h : FitsSigned 64 v) : Takes int64 (Writer.int64 v) v :=
  fitting_takes 8 (by decide) h

theorem uint32_takes {n : ℕ} (h : n < 2^32) : Takes uint32 (Writer.uint32 n) n :=
  unsigned_takes (by omega)

/-! ### Variable-length numbers -/

theorem unzigzag_zigzag (v : ℤ) : unzigzag (Writer.zigzag v)=v := by
  unfold unzigzag Writer.zigzag
  by_cases h : 0 ≤ v
  · rw [if_pos h,if_pos (by omega)]
    omega
  · rw [if_neg h,if_neg (by omega)]
    omega

theorem zigzag_lt (h : FitsSigned 64 v) : Writer.zigzag v < 2^64 := by
  obtain ⟨hlow,hhigh⟩ := h
  unfold Writer.zigzag
  split <;> omega

theorem varlongFrom_more {passes low shift : ℕ} {byte : UInt8} (hbyte : 128 ≤ byte.toNat)
    (h : Takes (varlongFrom passes (low ||| (byte.toNat%128*2^shift)%2^64) (shift+7)) s v) :
    Takes (varlongFrom (passes+1) low shift) (byte::s) v := by
  refine (take_takes (rfl : [byte].length=1)).bind (t := s) ?_
  change Takes (if byte.toNat < 128 then _ else _) s v
  rw [if_neg (by omega)]
  exact h

theorem varlongFrom_last (passes low shift : ℕ) {byte : UInt8} (hbyte : byte.toNat < 128) :
    Takes (varlongFrom (passes+1) low shift) [byte]
      (unzigzag (low ||| (byte.toNat%128*2^shift)%2^64)) := by
  refine (take_takes (rfl : [byte].length=1)).finish ?_
  change Takes (if byte.toNat < 128 then _ else _) [] _
  rw [if_pos hbyte]
  exact Takes.pure _

theorem or_group {low shift d : ℕ} (hlow : low < 2^shift) (hfits : d*2^shift < 2^64) :
    low ||| (d*2^shift)%2^64=low+d*2^shift := by
  rw [Nat.mod_eq_of_lt hfits,Nat.or_comm,Nat.mul_comm,← Nat.two_pow_add_eq_or_of_lt hlow,
    Nat.add_comm]

theorem varlongFrom_takes (passes low shift raw : ℕ) (hlow : low < 2^shift)
    (hraw : raw < 128^(passes+1)) (hfits : raw*2^shift < 2^64) :
    Takes (varlongFrom (passes+1) low shift) (Writer.groups passes raw)
      (unzigzag (low+raw*2^shift)) := by
  induction passes generalizing low shift raw with
  | zero =>
    have hsmall : raw < 128 := by omega
    have hbyte : (UInt8.ofNat raw).toNat=raw := by rw [UInt8.toNat_ofNat']; omega
    have hread := varlongFrom_last 0 low shift (by omega : (UInt8.ofNat raw).toNat < 128)
    rwa [hbyte,Nat.mod_eq_of_lt hsmall,or_group hlow hfits] at hread
  | succ passes ih =>
    rw [Writer.groups]
    by_cases hmore : 128 ≤ raw
    · rw [if_pos hmore]
      have hbyte : (UInt8.ofNat (raw%128+128)).toNat=raw%128+128 := by
        rw [UInt8.toNat_ofNat']
        omega
      have hgroup : (raw%128+128)%128=raw%128 := by omega
      have hpos : 0 < 2^shift := by positivity
      have hpow : 2^(shift+7)=2^shift*128 := by rw [pow_add]; rfl
      have hsplit : raw*2^shift=raw%128*2^shift+raw/128*2^(shift+7) := by
        have h := Nat.div_add_mod raw 128
        calc raw*2^shift=(128*(raw/128)+raw%128)*2^shift := by rw [h]
          _=raw%128*2^shift+raw/128*2^(shift+7) := by rw [hpow]; ring
      have hdigit : raw%128*2^shift ≤ 127*2^shift := Nat.mul_le_mul_right _ (by omega)
      have hrest : raw/128 < 128^(passes+1) := by
        rw [pow_succ 128 (passes+1)] at hraw
        omega
      refine varlongFrom_more (by omega) ?_
      rw [hbyte,hgroup,or_group hlow (by omega),hsplit,← Nat.add_assoc]
      exact ih (low+raw%128*2^shift) (shift+7) (raw/128) (by omega) hrest (by omega)
    · rw [if_neg hmore]
      have hbyte : (UInt8.ofNat raw).toNat=raw := by rw [UInt8.toNat_ofNat']; omega
      have hread := varlongFrom_last (passes+1) low shift
        (by omega : (UInt8.ofNat raw).toNat < 128)
      rwa [hbyte,Nat.mod_eq_of_lt (by omega : raw < 128),or_group hlow hfits] at hread

theorem varlong_takes (h : FitsSigned 64 v) : Takes varlong (Writer.varlong v) v := by
  have hlt := zigzag_lt h
  have hread := varlongFrom_takes 9 0 0 (Writer.zigzag v) (by decide) (by omega) (by omega)
  rwa [pow_zero,Nat.mul_one,Nat.zero_add,unzigzag_zigzag] at hread

theorem varint_takes (h : FitsSigned 32 v) : Takes varint (Writer.varint v) v := by
  rw [Writer.varint,toSigned_toUnsigned (by decide) h]
  refine (varlong_takes (h.mono (by decide))).finish ?_
  rw [if_pos h]
  exact Takes.pure v

/-! ### Byte strings -/

theorem nullableBytes_takes (h : s.length < 2^31) :
    Takes nullableBytes (Writer.bytes s) (some s) := by
  refine (int32_takes ⟨by omega,by omega⟩).bind ((take_takes rfl).look fun r hr _ => ?_)
  rw [if_neg (by rw [hr]; simp),Int.toNat_natCast]

theorem nullableBytes_null : Takes nullableBytes Writer.nullBytes none := by
  refine (int32_takes (by decide)).finish ((Takes.pure none).look fun r _ _ => ?_)
  rw [if_pos (.inr (by decide))]

theorem varintBytes_takes (h : s.length < 2^31) :
    Takes varintBytes (Writer.varint s.length++s) (some (s,false)) := by
  refine (varint_takes ⟨by omega,by omega⟩).bind
    (((take_takes rfl).map (Option.map (·,false))).look fun r hr _ => ?_)
  rw [if_neg (by rw [hr]; simp),if_neg (by omega),Int.toNat_natCast]
  rfl

theorem varintBytes_null : Takes varintBytes (Writer.varint (-1)) (some ([],true)) := by
  refine (varint_takes (by decide)).finish ((Takes.pure _).look fun r hr _ => ?_)
  rw [if_neg (by rw [hr]; simp),if_pos (by decide)]

end Reader

end Mnemos.Kafka

/-! ## Record batches and stored records -/

namespace Mnemos.Kafka

def crc32cEntry : ℕ → UInt32 → UInt32
  | 0,crc => crc
  | bits+1,crc => crc32cEntry bits (if crc &&& 1=1 then (crc >>> 1) ^^^ 0x82f63b78 else crc >>> 1)

def kCrc32cTable : Vector UInt32 256 :=
  Vector.ofFn fun i : Fin 256 => crc32cEntry 8 (UInt32.ofNat i)

def crc32cStep (crc : UInt32) (byte : UInt8) : UInt32 :=
  kCrc32cTable.get (Fin.ofNat 256 (crc ^^^ byte.toUInt32).toNat) ^^^ (crc >>> 8)

def crc32c (crc : UInt32) (data : Bytes) : UInt32 := ~~~ data.foldl crc32cStep (~~~ crc)

example : crc32c 0 (ascii "123456789")=0xe3069283 := by decide +kernel

def kMagicV2 : ℤ := 2

def kBatchHeaderSize : ℕ := 61

def kCrcCoverageStart : ℕ := 21

def wrap64 (v : ℤ) : ℤ := toSigned 64 (toUnsigned 64 v)

structure RecordHeader where
  key : Bytes := []
  value : Bytes := []
  valueNull : Bool := false
deriving DecidableEq

structure Record where
  offset : ℤ := 0
  timestamp : ℤ := 0
  key : Bytes := []
  keyNull : Bool := true
  value : Bytes := []
  valueNull : Bool := true
  headers : List RecordHeader := []
deriving DecidableEq

/-! ## Reading batches -/

abbrev Parse := ExceptT ErrorCode Decode

namespace Parse

def require (condition : Prop) [Decidable condition] (e : ErrorCode) : Parse Unit :=
  if condition then pure () else throw e

def accept {A : Type} (p : Decode (Option A)) : Parse A := do
  match ← p with
  | some a => pure a
  | none => throw .invalidRequest

def within {A : Type} (bytes : Bytes) (p : Parse A) : Parse A :=
  fun r => ((p { left := bytes }).1,r)

end Parse

open Reader Parse

def decodeHeaders : ℕ → List RecordHeader → Parse (List RecordHeader)
  | 0,headers => pure headers
  | n+1,headers => do
    let (key,keyNull) ← accept varintBytes
    require (keyNull=false) .invalidRequest
    let (value,valueNull) ← accept varintBytes
    decodeHeaders n (headers++[{ key, value, valueNull }])

def decodeRecord (baseTimestamp : ℤ) : Parse Record := do
  let _ ← int8
  let timestamp := wrap64 (baseTimestamp+(← varlong))
  let _ ← varint
  let (key,keyNull) ← accept varintBytes
  let (value,valueNull) ← accept varintBytes
  let headerCount ← varint
  let r ← get
  require (r.ok=true ∧ 0 ≤ headerCount ∧ headerCount ≤ r.remaining) .invalidRequest
  let headers ← decodeHeaders headerCount.toNat []
  let r ← get
  require (r.ok=true) .invalidRequest
  pure { timestamp, key, keyNull, value, valueNull, headers }

def decodeFramed (baseTimestamp : ℤ) : Parse Record := do
  let recLen ← varint
  let area ← get
  require (area.ok=true ∧ 0 ≤ recLen) .invalidRequest
  let recBytes ← accept (takeView recLen.toNat)
  within recBytes (decodeRecord baseTimestamp)

/-- The loop over the records of a batch, appending to `out`. -/
def decodeRecords (baseTimestamp : ℤ) : ℕ → List Record → Decode (ErrorCode×List Record)
  | 0,out => do return (if (← get).ok then .none else .invalidRequest,out)
  | n+1,out => do
    match ← (decodeFramed baseTimestamp).run with
    | .ok r => decodeRecords baseTimestamp n (out++[r])
    | .error e => pure (e,out)

/-- What the fixed part of a batch says: the loop over its records needs no more. -/
structure BatchHeader where
  batchEnd : ℕ
  recordsAt : ℕ
  baseTimestamp : ℤ
  count : ℕ
deriving DecidableEq

def decodeBatchHeader (blob : Bytes) : Parse BatchHeader := do
  require (kBatchHeaderSize ≤ blob.length) .invalidRequest
  let _ ← int64
  let batchLen ← int32
  let r ← get
  require (r.ok=true ∧ 0 ≤ batchLen) .invalidRequest
  let bodyStart := r.position
  require (batchLen ≤ blob.length-bodyStart) .invalidRequest
  let batchEnd := bodyStart+batchLen.toNat
  let _ ← int32
  let magic ← int8
  require (magic=kMagicV2) .invalidRequest
  let statedCrc ← uint32
  let r ← get
  require (r.ok=true ∧ kCrcCoverageStart ≤ batchEnd) .invalidRequest
  require ((crc32c 0 ((blob.take batchEnd).drop kCrcCoverageStart)).toNat=statedCrc)
    .kafkaStorageError
  let attributes ← int16
  require (toUnsigned 16 attributes%8=0) .unsupportedCompression
  let _ ← int32
  let baseTimestamp ← int64
  let _ ← int64
  let _ ← int64
  let _ ← int16
  let _ ← int32
  let count ← int32
  let r ← get
  require (r.ok=true ∧ 0 ≤ count) .invalidRequest
  let recordsAt := r.position
  require (recordsAt ≤ batchEnd) .invalidRequest
  pure { batchEnd, recordsAt, baseTimestamp, count := count.toNat }

/-- The loop over the batches; each takes more than nothing, so there are at most as many as there
are bytes. -/
def decodeBatches : ℕ → Bytes → List Record → ErrorCode×List Record
  | 0,_,out => (.none,out)
  | passes+1,blob,out =>
    if blob=[] then (.none,out)
    else
      match (decodeBatchHeader blob { left := blob }).1 with
      | .error e => (e,out)
      | .ok header =>
        let area := (blob.take header.batchEnd).drop header.recordsAt
        let (e,out) := (decodeRecords header.baseTimestamp header.count out { left := area }).1
        if e=.none then decodeBatches passes (blob.drop header.batchEnd) out else (e,out)

/-- With what becomes of `out`. -/
def decodeRecordBatches (blob : Bytes) (out : List Record) : ErrorCode×List Record :=
  decodeBatches blob.length blob out

/-! ## Writing a batch -/

def encodeField (null : Bool) (s : Bytes) : Bytes :=
  if null then Writer.varint (-1) else Writer.varint s.length++s

def encodeHeader (h : RecordHeader) : Bytes :=
  Writer.varint h.key.length++h.key++encodeField h.valueNull h.value

def encodeRecord (baseTs : ℤ) (i : ℕ) (r : Record) : Bytes :=
  Writer.int8 0++Writer.varlong (wrap64 (r.timestamp-baseTs))++Writer.varint i++
    encodeField r.keyNull r.key++encodeField r.valueNull r.value++
    Writer.varint r.headers.length++r.headers.flatMap encodeHeader

def encodeFramed (body : Bytes) : Bytes := Writer.varint body.length++body

def encodeRecords (baseTs : ℤ) : ℕ → List Record → Bytes
  | _,[] => []
  | i,r::records => encodeFramed (encodeRecord baseTs i r)++encodeRecords baseTs (i+1) records

def encodeRecordBatch (baseOffset : ℤ) (records : List Record) : Bytes :=
  let w := Writer.int64 baseOffset
  let lenAt := w.length
  let w := w++Writer.int32 0
  let bodyStart := w.length
  let w := w++Writer.int32 0++Writer.int8 kMagicV2
  let crcAt := w.length
  let w := w++Writer.int32 0
  let crcStart := w.length
  let baseTs := (records.head?.map Record.timestamp).getD (-1)
  let maxTs := records.foldl (fun m r => if m < r.timestamp then r.timestamp else m) baseTs
  let w := w++Writer.int16 0++Writer.int32 (records.length-1 : ℕ)++Writer.int64 baseTs++
    Writer.int64 maxTs++Writer.int64 (-1)++Writer.int16 (-1)++Writer.int32 (-1)++
    Writer.int32 records.length++encodeRecords baseTs 0 records
  let w := Writer.patchInt32 w lenAt (w.length-bodyStart : ℕ)
  Writer.patchUint32 w crcAt (crc32c 0 (w.drop crcStart)).toNat

/-! ## The stored form -/

def storedField (null : Bool) (s : Bytes) : Bytes :=
  if null then Writer.nullBytes else Writer.bytes s

def storedHeader (h : RecordHeader) : Bytes :=
  Writer.bytes h.key++storedField h.valueNull h.value

def encodeStoredRecord (r : Record) : Bytes :=
  Writer.int8 1++Writer.int64 r.timestamp++storedField r.keyNull r.key++
    storedField r.valueNull r.value++Writer.int32 r.headers.length++
    r.headers.flatMap storedHeader

def decodeStoredHeaders : ℕ → List RecordHeader → OptionT Decode (List RecordHeader)
  | 0,headers => pure headers
  | n+1,headers => do
    let key ← OptionT.mk nullableBytes
    let value ← OptionT.lift nullableBytes
    decodeStoredHeaders n
      (headers++[{ key := key, value := value.getD [], valueNull := value.isNone }])

def storedRecord : OptionT Decode Record := do
  let version ← OptionT.lift int8
  guard (version=1)
  let timestamp ← OptionT.lift int64
  let key ← OptionT.lift nullableBytes
  let value ← OptionT.lift nullableBytes
  let headerCount ← OptionT.lift int32
  let r ← get
  guard (r.ok=true ∧ 0 ≤ headerCount ∧ headerCount ≤ r.remaining)
  let headers ← decodeStoredHeaders headerCount.toNat []
  let r ← get
  guard (r.ok=true)
  pure { timestamp := timestamp, key := key.getD [], keyNull := key.isNone,
         value := value.getD [], valueNull := value.isNone, headers := headers }

/-- None if it returns false. -/
def decodeStoredRecord (blob : Bytes) : Option Record := (storedRecord { left := blob }).1

end Mnemos.Kafka
