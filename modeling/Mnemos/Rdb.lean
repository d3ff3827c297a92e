import Mnemos.Lzf
import Mnemos.Value

/-!
# The snapshot format

Lengths, strings and objects as the source writes and reads them, and the
payload of DUMP and RESTORE.
-/

open List

namespace Mnemos

inductive Failure where
  | rejected
  | raised
deriving DecidableEq,Repr

def Reader (A : Type) : Type := Bytes → Except Failure (A×Bytes)

namespace Reader

instance : Monad Reader where
  pure a := fun bytes => .ok (a,bytes)
  bind p f := fun bytes =>
    match p bytes with
    | .ok (a,rest) => f a rest
    | .error e => .error e

theorem bind_pure_id {A : Type} (p : Reader A) : (p >>= fun a => pure a)=p := by
  funext bytes
  change (match p bytes with
    | .ok (a,rest) => .ok (a,rest)
    | .error e => .error e)=p bytes
  cases p bytes <;> rfl

theorem bind_bind {A B C : Type} (p : Reader A) (f : A → Reader B) (g : B → Reader C) :
    p >>= f >>= g=p >>= fun a => f a >>= g := by
  funext bytes
  change (match (match p bytes with
      | .ok (a,rest) => f a rest
      | .error e => .error e) with
    | .ok (b,rest) => g b rest
    | .error e => .error e)=
    match p bytes with
    | .ok (a,rest) => (f a >>= g) rest
    | .error e => .error e
  cases p bytes <;> rfl

instance : LawfulMonad Reader :=
  LawfulMonad.mk' Reader bind_pure_id (fun _ _ => rfl) bind_bind

def reject {A : Type} : Reader A := fun _ => .error .rejected

def raise {A : Type} : Reader A := fun _ => .error .raised

def check (condition : Bool) : Reader Unit := if condition then pure () else reject

def allocate (size limit : ℕ) : Reader Unit :=
  if size ≤ limit then pure () else raise

def require {A : Type} : Option A → Reader A
  | some a => pure a
  | none => reject

def times {A : Type} (p : A → Reader A) : ℕ → A → Reader A
  | 0,a => pure a
  | n+1,a => do
    let a ← p a
    times p n a

def collect {A : Type} (p : Reader A) : ℕ → Reader (List A)
  | 0 => pure []
  | n+1 => do
    let a ← p
    let rest ← collect p n
    pure (a::rest)

end Reader

def readByte : Reader UInt8
  | [] => .error .rejected
  | b::rest => .ok (b,rest)

def readRaw (n : ℕ) : Reader Bytes := fun bytes =>
  if bytes.length < n then .error .rejected else .ok (bytes.take n,bytes.drop n)

/-- The reader takes exactly these bytes and returns this value, whatever follows. -/
def Reads {A : Type} (p : Reader A) (bytes : Bytes) (a : A) : Prop :=
  ∀ rest,p (bytes++rest)=.ok (a,rest)

section Reads

variable {A B : Type}

theorem Reader.bind_eq {p : Reader A} {bytes mid : Bytes} {a : A} (h : p bytes=.ok (a,mid))
    (f : A → Reader B) : (p >>= f) bytes=f a mid := by
  change (match p bytes with
    | .ok (a,rest) => f a rest
    | .error e => .error e)=f a mid
  rw [h]

theorem Reads.pure (a : A) : Reads (Pure.pure a) [] a := fun _ => rfl

theorem Reads.bind {p : Reader A} {f : A → Reader B} {s t : Bytes} {a : A} {b : B}
    (hp : Reads p s a) (hf : Reads (f a) t b) : Reads (p >>= f) (s++t) b := by
  intro rest
  rw [append_assoc,Reader.bind_eq (hp (t++rest))]
  exact hf rest

theorem Reads.map {p : Reader A} {s : Bytes} {a : A} (hp : Reads p s a) (f : A → B) :
    Reads (p >>= fun x => Pure.pure (f x)) s (f a) := by
  have h : Reads (p >>= fun x => Pure.pure (f x)) (s++[]) (f a) := hp.bind (Reads.pure (f a))
  rwa [append_nil] at h

theorem Reads.check {condition : Bool} {f : Unit → Reader B} {t : Bytes} {b : B}
    (hc : condition=true) (hf : Reads (f ()) t b) : Reads (Reader.check condition >>= f) t b := by
  rw [Reader.check,if_pos hc]
  exact (Reads.pure ()).bind hf

theorem Reads.allocate {size limit : ℕ} {f : Unit → Reader B} {t : Bytes} {b : B}
    (hsize : size ≤ limit) (hf : Reads (f ()) t b) :
    Reads (Reader.allocate size limit >>= f) t b := by
  rw [Reader.allocate,if_pos hsize]
  exact (Reads.pure ()).bind hf

theorem Reads.require {o : Option A} {a : A} {f : A → Reader B} {t : Bytes} {b : B}
    (ho : o=some a) (hf : Reads (f a) t b) : Reads (Reader.require o >>= f) t b := by
  rw [ho]
  exact (Reads.pure a).bind hf

theorem readByte_reads (b : UInt8) : Reads readByte [b] b := fun _ => rfl

theorem readRaw_reads {n : ℕ} {s : Bytes} (h : s.length=n) : Reads (readRaw n) s s := by
  intro rest
  rw [readRaw,if_neg (by rw [length_append]; omega),take_left' h,drop_left' h]

theorem Reads.times {C : Type} {p : A → Reader A} (encode : C → Bytes) (step : A → C → A)
    (xs : List C) (h : ∀ a,∀ x∈xs,Reads (p a) (encode x) (step a x)) (a : A) :
    Reads (Reader.times p xs.length a) (xs.flatMap encode) (xs.foldl step a) := by
  induction xs generalizing a with
  | nil => exact Reads.pure a
  | cons x xs ih =>
    exact (h a x mem_cons_self).bind
      (ih (fun a y hy => h a y (mem_cons_of_mem _ hy)) (step a x))

end Reads

section Accepted

variable {A B C : Type}

variable {bytes rest : Bytes}

theorem Reader.bind_ok {p : Reader A} {f : A → Reader B} {b : B}
    (h : (p >>= f) bytes=.ok (b,rest)) :
    ∃ a mid,p bytes=.ok (a,mid) ∧ f a mid=.ok (b,rest) := by
  change (match p bytes with
    | .ok (a,rest) => f a rest
    | .error e => .error e)=.ok (b,rest) at h
  split at h
  · rename_i a mid hp
    exact ⟨a,mid,hp,h⟩
  · cases h

theorem Reader.pure_ok {a b : A} (h : (Pure.pure a : Reader A) bytes=.ok (b,rest)) :
    b=a ∧ rest=bytes := by
  cases h
  exact ⟨rfl,rfl⟩

theorem Reader.check_ok {condition : Bool} {f : Unit → Reader B} {b : B}
    (h : (Reader.check condition >>= f) bytes=.ok (b,rest)) :
    condition=true ∧ f () bytes=.ok (b,rest) := by
  obtain ⟨u,mid,hcheck,hf⟩ := Reader.bind_ok h
  rw [Reader.check] at hcheck
  split at hcheck
  · rename_i hc
    obtain ⟨-,rfl⟩ := Reader.pure_ok hcheck
    exact ⟨hc,hf⟩
  · cases hcheck

theorem Reader.require_ok {o : Option A} {f : A → Reader B} {b : B}
    (h : (Reader.require o >>= f) bytes=.ok (b,rest)) : ∃ a,o=some a ∧ f a bytes=.ok (b,rest) := by
  obtain ⟨a,mid,hrequire,hf⟩ := Reader.bind_ok h
  cases o with
  | none => cases hrequire
  | some x =>
    obtain ⟨rfl,rfl⟩ := Reader.pure_ok hrequire
    exact ⟨a,rfl,hf⟩

theorem Reader.times_ok {p : Reader C} {step : A → C → A} {q : A → Reader A}
    (hq : ∀ a bytes b rest,q a bytes=.ok (b,rest) → ∃ x,p bytes=.ok (x,rest) ∧ b=step a x) {n : ℕ}
    {a b : A} (h : Reader.times q n a bytes=.ok (b,rest)) :
    ∃ xs,Reader.collect p n bytes=.ok (xs,rest) ∧ b=xs.foldl step a := by
  induction n generalizing a bytes with
  | zero =>
    obtain ⟨rfl,rfl⟩ := Reader.pure_ok h
    exact ⟨[],rfl,rfl⟩
  | succ n ih =>
    obtain ⟨a',mid,hone,hmore⟩ := Reader.bind_ok h
    obtain ⟨x,hx,rfl⟩ := hq a bytes a' mid hone
    obtain ⟨xs,hxs,rfl⟩ := ih hmore
    refine ⟨x::xs,?_,rfl⟩
    rw [Reader.collect,Reader.bind_eq hx,Reader.bind_eq hxs]
    rfl

end Accepted

section Tails

variable {A B : Type}

def Reader.Tails (p : Reader A) : Prop :=
  ∀ bytes a rest,p bytes=.ok (a,rest) → rest <:+ bytes

theorem Reader.Tails.pure (a : A) : (Pure.pure a : Reader A).Tails := by
  intro bytes b rest h
  exact (Reader.pure_ok h).2 ▸ suffix_rfl

theorem Reader.Tails.bind {p : Reader A} {f : A → Reader B} (hp : p.Tails)
    (hf : ∀ a,(f a).Tails) : (p >>= f).Tails := by
  intro bytes b rest h
  obtain ⟨a,mid,hfirst,hsecond⟩ := Reader.bind_ok h
  exact (hf a mid b rest hsecond).trans (hp bytes a mid hfirst)

theorem Reader.Tails.map {p : Reader A} (hp : p.Tails) (f : A → B) :
    (p >>= fun a => Pure.pure (f a)).Tails := hp.bind fun a => .pure (f a)

theorem Reader.Tails.reject : (Reader.reject : Reader A).Tails := by
  intro bytes a rest h
  cases h

theorem Reader.Tails.ite {c : Prop} [Decidable c] {p q : Reader A} (hp : p.Tails) (hq : q.Tails) :
    (if c then p else q).Tails := by
  split
  · exact hp
  · exact hq

theorem Reader.Tails.check (condition : Bool) : (Reader.check condition).Tails :=
  .ite (.pure ()) .reject

theorem Reader.Tails.allocate (size limit : ℕ) : (Reader.allocate size limit).Tails := by
  refine .ite (.pure ()) ?_
  intro bytes a rest h
  cases h

theorem Reader.Tails.require (o : Option A) : (Reader.require o).Tails := by
  cases o with
  | none => exact .reject
  | some a => exact .pure a

theorem Reader.Tails.times {p : A → Reader A} (hp : ∀ a,(p a).Tails) (n : ℕ) (a : A) :
    (Reader.times p n a).Tails := by
  induction n generalizing a with
  | zero => exact .pure a
  | succ n ih => exact (hp a).bind ih

theorem readByte_tails : readByte.Tails := by
  intro bytes b rest h
  cases bytes with
  | nil => cases h
  | cons x bytes =>
    rw [readByte] at h
    obtain ⟨-,rfl⟩ := Prod.mk.inj (Except.ok.inj h)
    exact suffix_cons x bytes

theorem readRaw_tails (n : ℕ) : (readRaw n).Tails := by
  intro bytes raw rest h
  rw [readRaw] at h
  split at h
  · cases h
  · cases h
    exact drop_suffix n bytes

end Tails

end Mnemos

/-! ## The snapshot format -/

namespace Mnemos.Rdb

def kRdbVersion : ℕ := 15

def kCrcPolyReflected : UInt64 := 0x95ac9329ac4bc9b5

def crcBit (crc : UInt64) : UInt64 := (crc >>> 1)^^^(kCrcPolyReflected &&& ~~~((crc&&&1)-1))

def crcEntry (i : UInt64) : UInt64 :=
  crcBit (crcBit (crcBit (crcBit (crcBit (crcBit (crcBit (crcBit i)))))))

def crc64 (crc : UInt64) (bytes : Bytes) : UInt64 :=
  bytes.foldl (fun crc b => crcEntry ((crc^^^b.toUInt64)&&&0xFF)^^^(crc >>> 8)) crc

section Lengths

def saveLen (len : ℕ) : Bytes :=
  if len < 64 then [UInt8.ofNat len]
  else if len < 16384 then [UInt8.ofNat (64+len/256%64),UInt8.ofNat (len%256)]
  else if len ≤ 0xFFFFFFFF then 0x80::beBytes 4 len
  else 0x81::beBytes 8 len

/-- None when it returns false. -/
def saveIntegerEncoded (s : Bytes) : Option Bytes :=
  if s.isEmpty || 11 < s.length then none
  else
    match stringToInt64 s with
    | none => none
    | some value =>
      if intDecimal value≠s then none
      else if -128 ≤ value && value ≤ 127 then some (0xC0::leBytes 1 (toUnsigned 8 value))
      else if -32768 ≤ value && value ≤ 32767 then some (0xC1::leBytes 2 (toUnsigned 16 value))
      else if -2147483648 ≤ value && value ≤ 2147483647 then
        some (0xC2::leBytes 4 (toUnsigned 32 value))
      else none

def saveLzfEncoded (s : Bytes) : Option Bytes :=
  if s.length ≤ 4 then none
  else
    match Lzf.lzfCompress s (s.length-4) with
    | .error _ => none
    | .ok compressed => some (0xC3::(saveLen compressed.length++(saveLen s.length++compressed)))

def saveString (s : Bytes) : Bytes :=
  match if s.length ≤ 11 then saveIntegerEncoded s else none with
  | some encoded => encoded
  | none =>
    match if 20 < s.length then saveLzfEncoded s else none with
    | some encoded => encoded
    | none => saveLen s.length++s

end Lengths

open Reader

def stringMaxSize : ℕ := 2^62-1

def vectorMaxSize : ℕ := (2^63-1)/24

/-- Actual `readLen` with a place for the tag: the length or tag, and whether it is a tag. -/
def readLenOrTag : Reader (ℕ×Bool) := do
  let first ← readByte
  if first.toNat/64=0 then pure (first.toNat%64,false)
  else if first.toNat/64=3 then pure (first.toNat%64,true)
  else if first.toNat/64=1 then
    let second ← readByte
    pure (first.toNat%64*256+second.toNat,false)
  else if first=0x80 then
    let raw ← readRaw 4
    pure (beValue raw,false)
  else if first=0x81 then
    let raw ← readRaw 8
    pure (beValue raw,false)
  else reject

def readLen : Reader ℕ := do
  let (len,encoded) ← readLenOrTag
  check !encoded
  pure len

def expand (raw : Bytes) (ulen : ℕ) : Reader Bytes :=
  match Lzf.lzfDecompress raw ulen with
  | .error _ => reject
  | .ok out => do
    check (out.length=ulen)
    pure out

def readLzf : Reader Bytes := do
  let clen ← readLen
  let ulen ← readLen
  let raw ← readRaw clen
  allocate ulen stringMaxSize
  check (ulen≠0)
  expand raw ulen

def readString : Reader Bytes := do
  let (len,encoded) ← readLenOrTag
  if !encoded then readRaw len
  else
    match len with
    | 0 =>
      let b ← readByte
      pure (intDecimal (toSigned 8 b.toNat))
    | 1 =>
      let raw ← readRaw 2
      pure (intDecimal (toSigned 16 (leValue raw)))
    | 2 =>
      let raw ← readRaw 4
      pure (intDecimal (toSigned 32 (leValue raw)))
    | 3 => readLzf
    | _ => reject

section Objects

variable [FloatText]

def saveBinaryDouble (value : Double) : Bytes := leBytes 8 value.bits.toNat

def loadBinaryDouble : Reader Double := do
  let raw ← readRaw 8
  pure ⟨UInt64.ofNat (leValue raw)⟩

def loadTextDouble : Reader Double := do
  let len ← readByte
  if len=255 then pure .negInfinity
  else if len=254 then pure .infinity
  else if len=253 then pure .nan
  else
    let raw ← readRaw len.toNat
    require (FloatText.stod raw)

def readListpack : Reader Listpack := do
  let blob ← readString
  require (Listpack.fromBytes blob)

def kPlainNodeThreshold : ℕ := 8192

def objectType (value : Value) : UInt8 :=
  match value.data with
  | .int _ | .embStr _ | .raw _ => 0
  | .list _ => 18
  | .set s =>
    match s.encoding with
    | .intSet => 11
    | .listPack => 20
    | _ => 2
  | .hash h => if h.encoding=.listPack then 16 else 4
  | .zset z => if z.encoding=.listPack then 17 else 5

def plainElement (node : Listpack) : Option Bytes :=
  if node.numElements=1 then
    match node.get 0 with
    | some (.string s) => if kPlainNodeThreshold < s.length then some s else none
    | _ => none
  else none

def saveNode (node : Listpack) : Bytes :=
  match plainElement node with
  | some s => saveLen 1++saveString s
  | none => saveLen 2++saveString node.buffer

def saveObjectBody (value : Value) : Bytes :=
  match value.data with
  | .int _ | .embStr _ | .raw _ => saveString value.stringValue
  | .list l => saveLen l.nodes.length++l.nodes.flatMap saveNode
  | .set (.intSet ints) => saveString ints.toBytes
  | .set (.listPack lp) => saveString lp.buffer
  | .set (.hashTable table) =>
    let members := (SetValue.hashTable table).members
    saveLen members.length++members.flatMap saveString
  | .hash (.listPack lp) => saveString lp.buffer
  | .hash (.hashTable table) =>
    let flat := (HashValue.hashTable table).flatten
    saveLen (flat.length/2)++flat.flatMap saveString
  | .zset (.listPack lp) => saveString lp.buffer
  | .zset (.skipList list scores) =>
    let all := (ZSetValue.skipList list scores).all
    saveLen all.length++all.reverse.flatMap fun e => saveString e.1++saveBinaryDouble e.2

def loadNode (packs : List Listpack) : Reader (List Listpack) := do
  let container ← readLen
  if container=1 then
    let element ← readString
    pure (packs++[Listpack.empty.append element])
  else
    check (container=2)
    let node ← readListpack
    check (node.numElements≠0)
    pure (packs++[node])

def loadMember (s : SetValue) : Reader SetValue := do
  let member ← readString
  pure (s.add member).2

def loadField (h : HashValue) : Reader HashValue := do
  let field ← readString
  let value ← readString
  pure (h.set field value).2

def loadPair (readScore : Reader Double) (z : ZSetValue×Draws) : Reader (ZSetValue×Draws) := do
  let member ← readString
  let score ← readScore
  pure (z.1.add member score z.2).2

def loadStringBody : Reader Value := do
  let s ← readString
  pure (.makeString s)

def loadListBody : Reader Value := do
  let nodes ← readLen
  check (nodes≠0)
  allocate nodes vectorMaxSize
  let packs ← times loadNode nodes []
  let l ← require (ListValue.adoptNodes packs)
  pure (.of (.list l))

def loadIntSetBody : Reader Value := do
  let blob ← readString
  let ints ← require (IntSet.fromBytes blob)
  check (ints.size≠0)
  pure (.of (.set (.adoptIntSet ints)))

def loadSetListpackBody : Reader Value := do
  let lp ← readListpack
  check (lp.numElements≠0)
  pure (.of (.set (.adoptListpack lp)))

def loadSetBody : Reader Value := do
  let len ← readLen
  check (len≠0)
  let s ← times loadMember len .empty
  check (0 < s.size)
  pure (.of (.set s))

def loadHashListpackBody : Reader Value := do
  let lp ← readListpack
  check (lp.numElements≠0)
  let h ← require (HashValue.adoptListpack lp)
  pure (.of (.hash h))

def loadHashBody : Reader Value := do
  let len ← readLen
  check (len≠0)
  let h ← times loadField len .empty
  check (0 < h.size)
  pure (.of (.hash h))

def loadZSetListpackBody (draws : Draws) : Reader (Value×Draws) := do
  let lp ← readListpack
  check (lp.numElements≠0)
  let r ← require (ZSetValue.adoptListpack lp draws)
  pure (.of (.zset r.1),r.2)

def loadZSetBody (readScore : Reader Double) (draws : Draws) : Reader (Value×Draws) := do
  let len ← readLen
  check (len≠0)
  let r ← times (loadPair readScore) len (.empty,draws)
  check (0 < r.1.size)
  pure (.of (.zset r.1),r.2)

def withDraws (p : Reader Value) (draws : Draws) : Reader (Value×Draws) := do
  let v ← p
  pure (v,draws)

/-- With the random numbers that a skip list drew. -/
def loadObjectBody (type : UInt8) (draws : Draws) : Reader (Value×Draws) :=
  if type=0 then withDraws loadStringBody draws
  else if type=18 then withDraws loadListBody draws
  else if type=11 then withDraws loadIntSetBody draws
  else if type=20 then withDraws loadSetListpackBody draws
  else if type=2 then withDraws loadSetBody draws
  else if type=16 then withDraws loadHashListpackBody draws
  else if type=4 then withDraws loadHashBody draws
  else if type=17 then loadZSetListpackBody draws
  else if type=3 then loadZSetBody loadTextDouble draws
  else if type=5 then loadZSetBody loadBinaryDouble draws
  else reject

def dumpPayload (value : Value) : Bytes :=
  let out := objectType value::saveObjectBody value++leBytes 2 kRdbVersion
  out++leBytes 8 (crc64 0 out).toNat

def payloadFooterOk (payload : Bytes) : Bool :=
  if payload.length < 11 then false
  else
    let footer := payload.length-10
    let version := leValue ((payload.drop footer).take 2)
    let stored := leValue (payload.drop (footer+2))
    if kRdbVersion < version then false
    else stored==(crc64 0 (payload.take (footer+2))).toNat

def loadPayload (payload : Bytes) (draws : Draws) : Except Failure (Value×Draws) :=
  if payload.length < 11 then .error .rejected
  else
    let body : Reader (Value×Draws) := do
      let type ← readByte
      loadObjectBody type draws
    match body (payload.take (payload.length-10)) with
    | .error e => .error e
    | .ok (result,rest) => if rest=[] then .ok result else .error .rejected

end Objects

/-! ## Objects read back -/

/-! ## Lengths and strings -/

theorem readLenOrTag_saveLen {n : ℕ} (h : n < 2^64) : Reads readLenOrTag (saveLen n) (n,false) := by
  rw [saveLen]
  split
  · rename_i hsmall
    have hbyte : (UInt8.ofNat n).toNat=n := by rw [UInt8.toNat_ofNat']; omega
    refine (readByte_reads (UInt8.ofNat n)).bind (t := []) ?_
    rw [hbyte,if_pos (by omega),Nat.mod_eq_of_lt hsmall]
    exact Reads.pure _
  · split
    · rename_i hlarge hmedium
      have hfirst : (UInt8.ofNat (64+n/256%64)).toNat=64+n/256%64 := by
        rw [UInt8.toNat_ofNat']
        omega
      have hsecond : (UInt8.ofNat (n%256)).toNat=n%256 := by rw [UInt8.toNat_ofNat']; omega
      refine (readByte_reads (UInt8.ofNat (64+n/256%64))).bind (t := [UInt8.ofNat (n%256)]) ?_
      rw [hfirst,if_neg (by omega),if_neg (by omega),if_pos (by omega)]
      have hread := (readByte_reads (UInt8.ofNat (n%256))).map fun second =>
        ((64+n/256%64)%64*256+second.toNat,false)
      rw [hsecond,show (64+n/256%64)%64*256+n%256=n by omega] at hread
      exact hread
    · split
      · rename_i hlarge hword
        have hread := (readRaw_reads (show (beBytes 4 n).length=4 by simp [beBytes])).map
          fun raw => (beValue raw,false)
        rw [beValue_beBytes_of_lt (by omega)] at hread
        exact (readByte_reads 0x80).bind hread
      · have hread := (readRaw_reads (show (beBytes 8 n).length=8 by simp [beBytes])).map
          fun raw => (beValue raw,false)
        rw [beValue_beBytes_of_lt (by omega)] at hread
        exact (readByte_reads 0x81).bind hread

theorem readLen_saveLen {n : ℕ} (h : n < 2^64) : Reads readLen (saveLen n) n := by
  have hread := (readLenOrTag_saveLen h).bind (f := fun r => do
    Reader.check !r.2
    pure r.1) (Reads.check rfl (Reads.pure n))
  rwa [List.append_nil] at hread

theorem readLenOrTag_tag (tag : ℕ) (h : tag < 64) :
    Reads readLenOrTag [UInt8.ofNat (0xC0+tag)] (tag,true) := by
  have hbyte : (UInt8.ofNat (0xC0+tag)).toNat=0xC0+tag := by rw [UInt8.toNat_ofNat']; omega
  refine (readByte_reads (UInt8.ofNat (0xC0+tag))).bind (t := []) ?_
  rw [hbyte,if_neg (by omega),if_pos (by omega),show (0xC0+tag)%64=tag by omega]
  exact Reads.pure _

variable {s : Bytes}

theorem readString_saveIntegerEncoded {encoded : Bytes} (h : saveIntegerEncoded s=some encoded) :
    Reads readString encoded s := by
  rw [saveIntegerEncoded] at h
  split at h
  · cases h
  · split at h
    · cases h
    · rename_i value hvalue
      obtain ⟨rfl,-⟩ := stringToInt64_eq_some.mp hvalue
      rw [if_neg (not_not.mpr rfl)] at h
      simp only [Bool.and_eq_true,decide_eq_true_eq] at h
      split at h
      · rename_i hfits
        cases h
        have hfield := toSigned_leValue_leBytes 1 (z := value) (by decide)
          ⟨by omega,by omega⟩
        have hread := (readByte_reads (UInt8.ofNat (toUnsigned 8 value%256))).map fun b =>
          intDecimal (toSigned 8 b.toNat)
        rw [show toSigned 8 (UInt8.ofNat (toUnsigned 8 value%256)).toNat=value from hfield] at hread
        exact (readLenOrTag_tag 0 (by decide)).bind hread
      · split at h
        · rename_i hfits
          cases h
          have hfield := toSigned_leValue_leBytes 2 (z := value) (by decide)
            ⟨by omega,by omega⟩
          have hread := (readRaw_reads (leBytes_length 2 (toUnsigned 16 value))).map fun raw =>
            intDecimal (toSigned 16 (leValue raw))
          rw [show toSigned 16 (leValue (leBytes 2 (toUnsigned 16 value)))=value from hfield] at hread
          exact (readLenOrTag_tag 1 (by decide)).bind hread
        · split at h
          · rename_i hfits
            cases h
            have hfield := toSigned_leValue_leBytes 4 (z := value) (by decide)
              ⟨by omega,by omega⟩
            have hread := (readRaw_reads (leBytes_length 4 (toUnsigned 32 value))).map fun raw =>
              intDecimal (toSigned 32 (leValue raw))
            rw [show toSigned 32 (leValue (leBytes 4 (toUnsigned 32 value)))=value from hfield]
              at hread
            exact (readLenOrTag_tag 2 (by decide)).bind hread
          · cases h

theorem readString_saveLzfEncoded {encoded : Bytes} (hsize : s.length ≤ stringMaxSize)
    (h : saveLzfEncoded s=some encoded) : Reads readString encoded s := by
  rw [saveLzfEncoded] at h
  split at h
  · cases h
  · rename_i hlong
    have hyields := Lzf.lzfCompress_yields s (s.length-4)
    cases hcompress : Lzf.lzfCompress s (s.length-4) with
    | error e =>
      rw [hcompress] at h
      cases h
    | ok c =>
      rw [hcompress] at h hyields
      cases h
      obtain ⟨hshort,hback⟩ : c.length ≤ s.length-4 ∧ Lzf.lzfDecompress c s.length=.ok s := hyields
      unfold stringMaxSize at hsize
      have hlzf : Reads readLzf (saveLen c.length++(saveLen s.length++c)) s := by
        refine (readLen_saveLen (by omega)).bind ((readLen_saveLen (by omega)).bind ?_)
        have hrest := (readRaw_reads (rfl : c.length=c.length)).bind (t := [])
          (f := fun raw => do
            Reader.allocate s.length stringMaxSize
            Reader.check (decide (s.length≠0))
            expand raw s.length) (b := s) ?_
        · rwa [List.append_nil] at hrest
        · refine Reads.allocate hsize (Reads.check (by simp; rintro rfl; simp at hlong) ?_)
          rw [expand,hback]
          exact Reads.check (by simp) (Reads.pure s)
      exact (readLenOrTag_tag 3 (by decide)).bind hlzf

theorem readString_saveString (hsize : s.length ≤ stringMaxSize) :
    Reads readString (saveString s) s := by
  rw [saveString]
  split
  · rename_i encoded hencoded
    split at hencoded
    · exact readString_saveIntegerEncoded hencoded
    · cases hencoded
  · split
    · rename_i encoded hencoded
      split at hencoded
      · exact readString_saveLzfEncoded hsize hencoded
      · cases hencoded
    · unfold stringMaxSize at hsize
      exact (readLenOrTag_saveLen (by omega)).bind (readRaw_reads rfl)

/-- A saved string and a saved length read back from the front of any bytes, which are left to
the next read. -/
theorem reads_saved (t : Bytes) :
    (∀ s : Bytes,s.length < 2^32 → readString (saveString s++t)=.ok (s,t)) ∧
      ∀ n : UInt64,readLen (saveLen n.toNat++t)=.ok (n.toNat,t) := by
  constructor
  · intro s hs
    have hsize : s.length ≤ stringMaxSize := by unfold stringMaxSize; omega
    exact readString_saveString hsize t
  · intro n
    exact readLen_saveLen n.toNat_lt t

theorem reads_saved_integer :
    saveString (ascii "-7")=[0xC0,0xF9] ∧
      readString (saveString (ascii "-7")++[1])=.ok (ascii "-7",[1]) :=
  ⟨by decide +kernel,(reads_saved [1]).1 (ascii "-7") (by decide)⟩

/-! ## Objects read back -/

open List

/-- Sizes that the format and the standard containers can hold. -/
def ListFits (l : ListValue) : Prop :=
  l.nodes.length ≤ vectorMaxSize ∧ ∀ node∈l.nodes,node.totalBytes < 2^32

def HashFits : HashValue → Prop
  | .listPack lp => lp.totalBytes < 2^32
  | .hashTable table => table.size < 2^64 ∧
      ∀ e∈table.entries,e.1.length ≤ stringMaxSize ∧ e.2.length ≤ stringMaxSize

def SetFits : SetValue → Prop
  | .intSet ints => ints.byteSize < 2^32
  | .listPack lp => lp.totalBytes < 2^32
  | .hashTable table => table.size < 2^64 ∧ ∀ e∈table.entries,e.1.length ≤ stringMaxSize

theorem readListpack_reads {lp : Listpack} {es : List Element} (h : lp.Holds es)
    (hsize : lp.totalBytes < 2^32) : Reads readListpack (saveString lp.buffer) lp := by
  have hmax : lp.buffer.length ≤ stringMaxSize := by
    unfold Listpack.totalBytes at hsize
    unfold stringMaxSize
    omega
  have hread := (readString_saveString hmax).bind
    (f := fun blob => Reader.require (Listpack.fromBytes blob)) (t := []) (b := lp) ?_
  · rwa [append_nil] at hread
  · rw [h.fromBytes hsize]
    exact Reads.pure lp

theorem loadStringBody_reads (hsize : s.length ≤ stringMaxSize) :
    Reads loadStringBody (saveString s) (.makeString s) :=
  (readString_saveString hsize).map Value.makeString

section Lists

def reloadNode (node : Listpack) : Listpack :=
  match plainElement node with
  | some s => Listpack.empty.append s
  | none => node

theorem plainElement_spec {node : Listpack} (h : node.Plain) {s : Bytes}
    (hplain : plainElement node=some s) : node.toStrings=[s] := by
  rw [plainElement] at hplain
  split at hplain
  · rename_i hone
    rw [h.numElements] at hone
    obtain ⟨x,hx⟩ := length_eq_one_iff.mp hone
    rw [h.get,hx] at hplain
    simp only [getElem?_cons_zero,Option.map_some] at hplain
    split at hplain
    · rename_i text htext
      rw [Option.some.injEq] at htext
      split at hplain
      · cases hplain
        have hx' := congrArg Element.toString htext
        rw [toString_elementOf] at hx'
        rw [hx,hx']
        rfl
      · cases hplain
    · cases hplain
  · cases hplain

theorem reloadNode_spec {node : Listpack} (h : node.Plain) :
    (reloadNode node).toStrings=node.toStrings ∧ (reloadNode node).numElements=node.numElements := by
  rw [reloadNode]
  split
  · rename_i s hs
    have htexts := plainElement_spec h hs
    have hsize : s.length < 2^32 := Listpack.Holds.text_lt h (by rw [htexts]; exact mem_cons_self)
    obtain ⟨hplain,hnew⟩ := Listpack.plain_empty.1.append hsize
    rw [Listpack.plain_empty.2,nil_append] at hnew
    exact ⟨by rw [hnew,htexts],by rw [hplain.numElements,h.numElements,hnew,htexts]⟩
  · exact ⟨rfl,rfl⟩

theorem loadNode_reads {node : Listpack} (h : node.Plain) (hsize : node.totalBytes < 2^32)
    (hsome : node.toStrings≠[]) (packs : List Listpack) :
    Reads (loadNode packs) (saveNode node) (packs++[reloadNode node]) := by
  rw [saveNode,reloadNode]
  cases hs : plainElement node with
  | some s =>
    have htexts := plainElement_spec h hs
    have hlt : s.length < 2^32 := Listpack.Holds.text_lt h (by rw [htexts]; exact mem_cons_self)
    have hmax : s.length ≤ stringMaxSize := by unfold stringMaxSize; omega
    refine (readLen_saveLen (by decide : 1 < 2^64)).bind ?_
    rw [if_pos rfl]
    exact (readString_saveString hmax).map fun s => packs++[Listpack.empty.append s]
  | none =>
    refine (readLen_saveLen (by decide : 2 < 2^64)).bind ?_
    rw [if_neg (by decide)]
    refine Reads.check rfl ?_
    have hread := (readListpack_reads h hsize).bind (t := []) (b := packs++[node])
      (f := fun node => do
        Reader.check (decide (node.numElements≠0))
        pure (packs++[node])) ?_
    · rwa [append_nil] at hread
    · refine Reads.check ?_ (Reads.pure _)
      rw [decide_eq_true_eq,h.numElements]
      exact mt length_eq_zero_iff.mp hsome

theorem loadListBody_reads {l : ListValue} (h : l.Ok) (hsome : 0 < l.size) (hfits : ListFits l) :
    ∃ l',Reads loadListBody (saveLen l.nodes.length++l.nodes.flatMap saveNode) (.of (.list l')) ∧
      l.toVector=l'.toVector := by
  have hsize : l.size=l.toVector.length := ListValue.Shape.size h.plain
  have hfull : ∀ node∈l.nodes,node.toStrings≠[] := by
    intro node hnode
    rcases h.full node hnode with hfull | halone
    · exact hfull
    · intro hnil
      rw [hsize,ListValue.toVector,halone,flatMap_singleton,hnil] at hsome
      exact absurd hsome (Nat.lt_irrefl 0)
  -- the nodes as they come back
  have hfold : l.nodes.foldl (fun packs node => packs++[reloadNode node]) []=
      l.nodes.map reloadNode := by
    rw [foldl_append_eq_append,nil_append,← flatMap_def]
    exact (map_eq_flatMap).symm
  have hnodes := Reads.times saveNode (fun packs node => packs++[reloadNode node]) l.nodes
    (fun packs node hnode => loadNode_reads (h.plain node hnode) (hfits.2 node hnode)
      (hfull node hnode) packs) []
  rw [hfold] at hnodes
  have hcount : ((l.nodes.map reloadNode).map Listpack.numElements).sum=l.size := by
    rw [ListValue.size,map_map]
    congr 1
    exact map_congr_left fun node hnode => (reloadNode_spec (h.plain node hnode)).2
  have hadopt : ListValue.adoptNodes (l.nodes.map reloadNode)=
      some (ListValue.maybeConvert (l.nodes.map reloadNode)) := by
    rw [ListValue.adoptNodes,hcount,if_neg (by omega)]
  refine ⟨ListValue.maybeConvert (l.nodes.map reloadNode),?_,?_⟩
  · have hlen : l.nodes.length < 2^64 := by
      have hmax := hfits.1
      unfold vectorMaxSize at hmax
      omega
    refine (readLen_saveLen hlen).bind (Reads.check ?_ (Reads.allocate hfits.1 ?_))
    · rw [decide_eq_true_eq]
      exact mt length_eq_zero_iff.mp h.some
    · have hread := hnodes.bind (t := []) (b := Value.of (.list (ListValue.maybeConvert
        (l.nodes.map reloadNode)))) (f := fun packs => do
          let l ← Reader.require (ListValue.adoptNodes packs)
          pure (.of (.list l))) (Reads.require hadopt (Reads.pure _))
      rwa [append_nil] at hread
  · rw [ListValue.toVector,ListValue.toVector,ListValue.maybeConvert_nodes,flatMap_map]
    exact flatMap_congr fun node hnode => (reloadNode_spec (h.plain node hnode)).1.symm

end Lists

section Sets

theorem loadIntSetBody_reads {ints : IntSet} (h : ints.Ok) (hsome : 0 < ints.size)
    (hfits : ints.byteSize < 2^32) :
    Reads loadIntSetBody (saveString ints.toBytes) (.of (.set (.adoptIntSet ints))) := by
  have hcount : ints.values.length < 2^32 := by
    have hwidth : 0 < ints.width.bytes := by cases ints.width <;> decide
    have hle := Nat.le_mul_of_pos_right ints.values.length hwidth
    unfold IntSet.byteSize at hfits
    omega
  have hlen : ints.toBytes.length ≤ stringMaxSize := by
    have hsize : ints.toBytes.length=ints.byteSize := IntSet.toBytes_length ints
    unfold stringMaxSize
    omega
  have hread := (readString_saveString hlen).bind (t := [])
    (b := Value.of (.set (.adoptIntSet ints))) (f := fun blob => do
      let ints ← Reader.require (IntSet.fromBytes blob)
      Reader.check (decide (ints.size≠0))
      pure (.of (.set (.adoptIntSet ints))))
    (Reads.require (h.fromBytes hcount)
      (Reads.check (by rw [decide_eq_true_eq]; omega) (Reads.pure _)))
  rwa [append_nil] at hread

theorem loadSetListpackBody_reads {lp : Listpack} {es : List Element} (h : lp.Holds es)
    (hsome : es≠[]) (hfits : lp.totalBytes < 2^32) :
    Reads loadSetListpackBody (saveString lp.buffer) (.of (.set (.adoptListpack lp))) := by
  have hread := (readListpack_reads h hfits).bind (t := [])
    (b := Value.of (.set (.adoptListpack lp))) (f := fun lp => do
      Reader.check (decide (lp.numElements≠0))
      pure (.of (.set (.adoptListpack lp))))
    (Reads.check (by
      rw [decide_eq_true_eq,h.numElements]
      exact mt length_eq_zero_iff.mp hsome) (Reads.pure _))
  rwa [append_nil] at hread

theorem loadSetBody_reads {ms : List Bytes} (hsome : ms≠[]) (hcount : ms.length < 2^64)
    (hsize : ∀ m∈ms,m.length ≤ stringMaxSize) :
    ∃ s : SetValue,s.Ok ∧ (∀ m,m∈s.members ↔ m∈ms) ∧
      Reads loadSetBody (saveLen ms.length++ms.flatMap saveString) (.of (.set s)) := by
  obtain ⟨hok,hmem⟩ := SetValue.empty_ok.addAll ms
  have hmembers : ∀ m,m∈(ms.foldl (fun s m => (s.add m).2) SetValue.empty).members ↔ m∈ms := by
    intro m
    rw [hmem]
    exact or_iff_left not_mem_nil
  refine ⟨_,hok,hmembers,?_⟩
  have hloop := Reads.times saveString (p := loadMember) (fun s m => (s.add m).2) ms
    (fun s m hm => (readString_saveString (hsize m hm)).map fun m => (s.add m).2) .empty
  refine (readLen_saveLen hcount).bind (Reads.check (decide_eq_true ?_) ?_)
  · exact mt length_eq_zero_iff.mp hsome
  · have hpos : 0 < (ms.foldl (fun s m => (s.add m).2) SetValue.empty).size := by
      rw [hok.size,length_pos_iff_exists_mem]
      obtain ⟨m,hm⟩ := exists_mem_of_ne_nil _ hsome
      exact ⟨m,(hmembers m).mpr hm⟩
    have hread := hloop.bind (t := []) (b := Value.of (.set _)) (f := fun s => do
      Reader.check (decide (0 < s.size))
      pure (.of (.set s))) (Reads.check (decide_eq_true hpos) (Reads.pure _))
    rwa [append_nil] at hread

end Sets

section Hashes

theorem loadHashListpackBody_reads {lp : Listpack} {ps : List (Dict.Entry Bytes)}
    (h : lp.Holds (Listpack.stored ps)) (hkeys : ps.NodupKeys) (hsome : ps≠[])
    (hfits : lp.totalBytes < 2^32) :
    ∃ h' : HashValue,h'.Ok ∧ (∀ k,h'.lookup k=ps.dlookup k) ∧
      Reads loadHashListpackBody (saveString lp.buffer) (.of (.hash h')) := by
  obtain ⟨h',hadopt,hok,hlookup⟩ := HashValue.adoptListpack_ok h hkeys
  refine ⟨h',hok,hlookup,?_⟩
  have hread := (readListpack_reads h hfits).bind (t := [])
    (b := Value.of (.hash h')) (f := fun lp => do
      Reader.check (decide (lp.numElements≠0))
      let h ← Reader.require (HashValue.adoptListpack lp)
      pure (.of (.hash h)))
    (Reads.check (by
      rw [decide_eq_true_eq,h.numElements,Listpack.stored_length]
      have hpos := length_pos_of_ne_nil hsome
      omega) (Reads.require hadopt (Reads.pure _)))
  rwa [append_nil] at hread

theorem loadHashBody_reads {es : List (Dict.Entry Bytes)} (hkeys : es.NodupKeys) (hsome : es≠[])
    (hcount : es.length < 2^64)
    (hsize : ∀ e∈es,e.1.length ≤ stringMaxSize ∧ e.2.length ≤ stringMaxSize) :
    ∃ h : HashValue,h.Ok ∧ (∀ k,h.lookup k=es.dlookup k) ∧
      Reads loadHashBody (saveLen es.length++(flatPairs es).flatMap saveString)
        (.of (.hash h)) := by
  obtain ⟨hok,hlookup⟩ := HashValue.setAll_empty hkeys
  refine ⟨_,hok,hlookup,?_⟩
  have hflat : (flatPairs es).flatMap saveString=
      es.flatMap fun e => saveString e.1++saveString e.2 := by
    rw [flatPairs,flatMap_assoc]
    simp
  have hloop := Reads.times (fun e : Dict.Entry Bytes => saveString e.1++saveString e.2)
    (p := loadField) (fun h e => (h.set e.1 e.2).2) es
    (fun h e he => (readString_saveString (hsize e he).1).bind
      ((readString_saveString (hsize e he).2).map fun v => (h.set e.1 v).2)) .empty
  rw [hflat]
  refine (readLen_saveLen hcount).bind (Reads.check (decide_eq_true ?_) ?_)
  · exact mt length_eq_zero_iff.mp hsome
  · have hpos : 0 < (es.foldl (fun h e => (h.set e.1 e.2).2) HashValue.empty).size := by
      rw [hok.size]
      obtain ⟨e,he⟩ := exists_mem_of_ne_nil _ hsome
      refine length_pos_of_ne_nil fun hnil => ?_
      have hmiss := hlookup e.1
      rw [HashValue.lookup,hnil,dlookup_nil,eq_comm,dlookup_eq_none] at hmiss
      exact hmiss (mem_keys_of_mem he)
    have hread := hloop.bind (t := []) (b := Value.of (.hash _)) (f := fun h => do
      Reader.check (decide (0 < h.size))
      pure (.of (.hash h))) (Reads.check (decide_eq_true hpos) (Reads.pure _))
    rwa [append_nil] at hread

end Hashes

theorem withDraws_reads {p : Reader Value} {v : Value} (h : Reads p s v)
    (draws : Draws) : Reads (withDraws p draws) s (v,draws) := h.map fun v => (v,draws)

theorem loadBinaryDouble_reads (x : Double) : Reads loadBinaryDouble (saveBinaryDouble x) x := by
  have hread := (readRaw_reads (leBytes_length 8 x.bits.toNat)).map fun raw =>
    (⟨UInt64.ofNat (leValue raw)⟩ : Double)
  have hlt : x.bits.toNat < 256^8 := x.bits.toNat_lt
  rw [leValue_leBytes_of_lt hlt,UInt64.ofNat_toNat] at hread
  exact hread

section Objects

variable [FloatText]

def ZSetFits : ZSetValue → Prop
  | .listPack lp => lp.totalBytes < 2^32
  | .skipList list scores => scores.size < 2^64 ∧
      ∀ e∈(ZSetValue.skipList list scores).all,e.1.length ≤ stringMaxSize

def Fits (v : Value) : Prop :=
  match v.data with
  | .int n => FitsSigned 64 n
  | .embStr s | .raw s => s.length ≤ stringMaxSize
  | .list l => ListFits l
  | .hash h => HashFits h
  | .set s => SetFits s
  | .zset z => ZSetFits z

def Ok (v : Value) : Prop :=
  match v.data with
  | .list l => l.Ok
  | .hash h => h.Ok
  | .set s => s.Ok
  | .zset z => z.Ok
  | _ => True

theorem loadZSetListpackBody_reads {lp : Listpack} {ps : List (Dict.Entry Bytes)}
    (h : lp.Holds (Listpack.stored ps)) (hlisting : Listing (ps.map ZSetValue.pairOf))
    (hsome : ps≠[]) (hfits : lp.totalBytes < 2^32) (draws : Draws) :
    ∃ (z : ZSetValue) (draws' : Draws),z.Ok ∧
      z.places=(ps.map ZSetValue.pairOf).map place ∧
      Reads (loadZSetListpackBody draws) (saveString lp.buffer) (.of (.zset z),draws') := by
  obtain ⟨z,draws',hadopt,hok,hplaces⟩ := ZSetValue.adoptListpack_ok h hlisting draws
  refine ⟨z,draws',hok,hplaces,?_⟩
  have hread := (readListpack_reads h hfits).bind (t := [])
    (b := (Value.of (.zset z),draws')) (f := fun lp => do
      Reader.check (decide (lp.numElements≠0))
      let r ← Reader.require (ZSetValue.adoptListpack lp draws)
      pure (.of (.zset r.1),r.2))
    (Reads.check (by
      rw [decide_eq_true_eq,h.numElements,Listpack.stored_length]
      have hpos := length_pos_of_ne_nil hsome
      omega) (Reads.require hadopt (Reads.pure _)))
  rwa [append_nil] at hread

theorem loadZSetBody_reads (exact : FloatText.Exact) {z : ZSetValue} (h : z.Ok)
    (hsome : z.all≠[]) (hcount : z.all.length < 2^64)
    (hsize : ∀ e∈z.all,e.1.length ≤ stringMaxSize) (draws : Draws) :
    ∃ (z' : ZSetValue) (draws' : Draws),z'.Ok ∧ z'.places=z.places ∧
      Reads (loadZSetBody loadBinaryDouble draws)
        (saveLen z.all.length++z.all.reverse.flatMap fun e => saveString e.1++saveBinaryDouble e.2)
        (.of (.zset z'),draws') := by
  obtain ⟨hok,hplaces⟩ := ZSetValue.addAll_places exact h (reverse_perm z.all) draws
  refine ⟨_,(ZSetValue.addAll z.all.reverse (.empty,draws)).2,hok,hplaces,?_⟩
  have hloop := Reads.times (fun e : Bytes×Double => saveString e.1++saveBinaryDouble e.2)
    (p := loadPair loadBinaryDouble) (fun z e => (z.1.add e.1 e.2 z.2).2) z.all.reverse
    (fun r e he => (readString_saveString (hsize e (mem_reverse.mp he))).bind
      ((loadBinaryDouble_reads e.2).map fun s => (r.1.add e.1 s r.2).2)) (.empty,draws)
  rw [length_reverse] at hloop
  refine (readLen_saveLen hcount).bind (Reads.check (decide_eq_true ?_) ?_)
  · exact mt length_eq_zero_iff.mp hsome
  · have hpos : 0 < (ZSetValue.addAll z.all.reverse (.empty,draws)).1.size := by
      have hlen := congrArg List.length hplaces
      rw [ZSetValue.places,ZSetValue.places,length_map,length_map,
        show z.listing.length=z.all.length from length_map _] at hlen
      rw [hok.size,hlen]
      exact length_pos_of_ne_nil hsome
    have hread := hloop.bind (t := [])
      (b := (Value.of (.zset (ZSetValue.addAll z.all.reverse (.empty,draws)).1),
        (ZSetValue.addAll z.all.reverse (.empty,draws)).2)) (f := fun r => do
        Reader.check (decide (0 < r.1.size))
        pure (.of (.zset r.1),r.2)) (Reads.check (decide_eq_true hpos) (Reads.pure _))
    rwa [append_nil] at hread

theorem same_pairs {y z : ZSetValue} (hy : y.Ok) (hz : z.Ok) (h : y.places=z.places) :
    Forall₂ (fun a b : Bytes×Double => a.1=b.1 ∧ a.2.eq b.2=true) y.all z.all := by
  have hall : ∀ xs ys : List (Bytes×Double),(∀ x∈xs,x.2.isNaN=false) → (∀ y∈ys,y.2.isNaN=false) →
      xs.map (fun e => place e.swap)=ys.map (fun e => place e.swap) →
      Forall₂ (fun a b : Bytes×Double => a.1=b.1 ∧ a.2.eq b.2=true) xs ys := by
    intro xs
    induction xs with
    | nil =>
      intro ys _ _ hmap
      rw [map_nil,eq_comm,map_eq_nil_iff] at hmap
      rw [hmap]
      exact .nil
    | cons x xs ih =>
      intro ys hxs hys hmap
      cases ys with
      | nil => cases hmap
      | cons y ys =>
        rw [map_cons,map_cons,List.cons.injEq] at hmap
        refine .cons ⟨congrArg Prod.snd hmap.1,?_⟩
          (ih ys (fun x hx => hxs x (mem_cons_of_mem _ hx))
            (fun y hy => hys y (mem_cons_of_mem _ hy)) hmap.2)
        exact (Double.eq_iff (hxs x mem_cons_self) (hys y mem_cons_self)).mpr
          (congrArg Prod.fst hmap.1)
  have hnumbers : ∀ {w : ZSetValue},w.Ok → ∀ x∈w.all,x.2.isNaN=false := fun hw x hx =>
    hw.listing.numbers x.swap (mem_map_of_mem hx)
  refine hall y.all z.all (hnumbers hy) (hnumbers hz) ?_
  rw [ZSetValue.places,ZSetValue.places,ZSetValue.listing,ZSetValue.listing,map_map,
    map_map] at h
  exact h

def Reloads (v : Value) (draws : Draws) : Prop :=
  ∃ (v' : Value) (draws' : Draws),v.SameContents v' ∧
    Reads (loadObjectBody (objectType v) draws) (saveObjectBody v) (v',draws')

theorem reloads_string {v : Value} (htype : v.type=.string)
    (hsize : v.stringValue.length ≤ stringMaxSize) (draws : Draws) : Reloads v draws := by
  obtain ⟨data,lastAccess⟩ := v
  have hmade := Value.makeString_represents (Value.mk data lastAccess).stringValue
  have hread := withDraws_reads (loadStringBody_reads hsize) draws
  cases data with
  | int n => exact ⟨_,draws,⟨hmade.type,hmade.stringValue.symm⟩,hread⟩
  | embStr s => exact ⟨_,draws,⟨hmade.type,hmade.stringValue.symm⟩,hread⟩
  | raw s => exact ⟨_,draws,⟨hmade.type,hmade.stringValue.symm⟩,hread⟩
  | list l => cases htype
  | hash h => cases htype
  | set s => cases htype
  | zset z => cases htype

theorem reloads_list {l : ListValue} (hok : l.Ok) (hsome : 0 < l.size) (hfits : ListFits l)
    (lastAccess : ℤ) (draws : Draws) : Reloads ⟨.list l,lastAccess⟩ draws := by
  obtain ⟨l',hread,hsame⟩ := loadListBody_reads hok hsome hfits
  exact ⟨.of (.list l'),draws,hsame,withDraws_reads hread draws⟩

theorem reloads_set {s : SetValue} (hok : s.Ok) (hsome : 0 < s.size) (hfits : SetFits s)
    (lastAccess : ℤ) (draws : Draws) : Reloads ⟨.set s,lastAccess⟩ draws := by
  have hsame : ∀ {s' : SetValue},s'.Ok → (∀ m,m∈s'.members ↔ m∈s.members) →
      (Value.mk (.set s) lastAccess).SameContents (.of (.set s')) := fun hok' hmem =>
    hok.members_perm hok' fun m => (hmem m).symm
  have hsome' : s.members≠[] := by
    rw [hok.size] at hsome
    exact ne_nil_of_length_pos hsome
  cases s with
  | intSet ints =>
    obtain ⟨hok',hmem⟩ := SetValue.adoptIntSet_ok hok
    exact ⟨_,draws,hsame hok' hmem,withDraws_reads (loadIntSetBody_reads hok hsome hfits) draws⟩
  | listPack lp =>
    obtain ⟨ms,hholds,hnodup⟩ := hok
    obtain ⟨hok',hmem⟩ := SetValue.adoptListpack_ok hholds hnodup
    rw [SetValue.members_listPack hholds] at hsome'
    refine ⟨_,draws,hsame hok' fun m => ?_,withDraws_reads (loadSetListpackBody_reads hholds
      (fun hnil => hsome' (map_eq_nil_iff.mp hnil)) hfits) draws⟩
    rw [hmem,SetValue.members_listPack hholds]
  | hashTable table =>
    have hcount : (SetValue.hashTable table).members.length < 2^64 := by
      rw [← hok.size]
      exact hfits.1
    obtain ⟨s',hok',hmem,hread⟩ := loadSetBody_reads hsome' hcount fun m hm => by
      obtain ⟨e,he,rfl⟩ := mem_map.mp hm
      exact hfits.2 e he
    exact ⟨_,draws,hsame hok' hmem,withDraws_reads hread draws⟩

theorem reloads_hash {h : HashValue} (hok : h.Ok) (hsome : 0 < h.size) (hfits : HashFits h)
    (lastAccess : ℤ) (draws : Draws) : Reloads ⟨.hash h,lastAccess⟩ draws := by
  have hsome' : h.entries≠[] := by
    rw [hok.size] at hsome
    exact ne_nil_of_length_pos hsome
  cases h with
  | listPack lp =>
    obtain ⟨ps,hholds,hkeys⟩ := hok
    rw [HashValue.entries_listPack hholds] at hsome'
    obtain ⟨h',hok',hlookup,hread⟩ := loadHashListpackBody_reads hholds hkeys hsome' hfits
    refine ⟨.of (.hash h'),draws,?_,withDraws_reads hread draws⟩
    refine HashValue.Ok.entries_perm ⟨ps,hholds,hkeys⟩ hok' fun k => ?_
    rw [hlookup,HashValue.lookup,HashValue.entries_listPack hholds]
  | hashTable table =>
    rw [HashValue.entries_hashTable] at hsome'
    have hcount : table.entries.length < 2^64 := by
      rw [← table.size_eq]
      exact hfits.1
    obtain ⟨h',hok',hlookup,hread⟩ :=
      loadHashBody_reads table.entries_nodupKeys hsome' hcount hfits.2
    refine ⟨.of (.hash h'),draws,?_,?_⟩
    · refine HashValue.Ok.entries_perm hok hok' fun k => ?_
      rw [hlookup,HashValue.lookup,HashValue.entries_hashTable]
    · have hlen : (HashValue.hashTable table).flatten.length/2=table.entries.length := by
        rw [HashValue.flatten,flatPairs_length]
        omega
      have hread' := withDraws_reads hread draws
      rw [← hlen] at hread'
      exact hread'

theorem reloads_zset (exact : FloatText.Exact) {z : ZSetValue} (hok : z.Ok) (hsome : 0 < z.size)
    (hfits : ZSetFits z) (lastAccess : ℤ) (draws : Draws) :
    Reloads ⟨.zset z,lastAccess⟩ draws := by
  have hlen : z.listing.length=z.all.length := length_map _
  have hsome' : z.all≠[] := by
    rw [hok.size,hlen] at hsome
    exact ne_nil_of_length_pos hsome
  cases z with
  | listPack lp =>
    obtain ⟨ps,hholds,hlisting⟩ := hok
    have hps : ps≠[] := by
      rintro rfl
      rw [ZSetValue.listing_listPack hholds,map_nil,length_nil] at hlen
      exact hsome' (length_eq_zero_iff.mp hlen.symm)
    obtain ⟨z',draws',hok',hplaces,hread⟩ :=
      loadZSetListpackBody_reads hholds hlisting hps hfits draws
    refine ⟨.of (.zset z'),draws',same_pairs ⟨ps,hholds,hlisting⟩ hok' ?_,hread⟩
    rw [hplaces,ZSetValue.places_listPack hholds]
  | skipList list scores =>
    have hcount : (ZSetValue.skipList list scores).all.length < 2^64 := by
      rw [← hlen,← hok.size]
      exact hfits.1
    obtain ⟨z',draws',hok',hplaces,hread⟩ :=
      loadZSetBody_reads exact hok hsome' hcount hfits.2 draws
    exact ⟨.of (.zset z'),draws',same_pairs hok hok' hplaces.symm,hread⟩

theorem reloads (exact : FloatText.Exact) {v : Value} (hok : Ok v) (hsome : 0 < v.elementCount)
    (hfits : Fits v) (draws : Draws) : Reloads v draws := by
  obtain ⟨data,lastAccess⟩ := v
  cases data with
  | int n =>
    refine reloads_string rfl ?_ draws
    have hlen : (intDecimal n).length ≤ 20 := intDecimal_length hfits
    exact hlen.trans (by decide)
  | embStr s => exact reloads_string (v := ⟨.embStr s,lastAccess⟩) rfl hfits draws
  | raw s => exact reloads_string (v := ⟨.raw s,lastAccess⟩) rfl hfits draws
  | list l => exact reloads_list hok hsome hfits lastAccess draws
  | hash h => exact reloads_hash hok hsome hfits lastAccess draws
  | set s => exact reloads_set hok hsome hfits lastAccess draws
  | zset z => exact reloads_zset exact hok hsome hfits lastAccess draws

end Objects

/-! ## Snapshot files -/

inductive WriteResult where
  | wrote (n : ℕ)
  | interrupted
  | failed
deriving DecidableEq,Repr

/-- The file is what its descriptor received. -/
structure FileWriter where
  file : Bytes
  buffer : Bytes
  crc : UInt64
  failed : Bool
  /-- Results of the next calls of `write`; later ones write everything. -/
  schedule : List WriteResult

def header : Bytes := ascii "REDIS0015"

def auxFrame (key value : Bytes) : Bytes := 0xFA::(saveString key++saveString value)

def FileWriter.create (schedule : List WriteResult) : FileWriter :=
  ⟨[],header++(auxFrame (ascii "redis-ver") (ascii "7.4.0")++
    auxFrame (ascii "redis-bits") (ascii "64")),0,false,schedule⟩

/-- The loop around `write`: the file, whether everything was written, and the later results. -/
def writeLoop : List WriteResult → Bytes → Bytes → Bytes×Bool×List WriteResult
  | schedule,[],file => (file,true,schedule)
  | [],left,file => (file++left,true,[])
  | .interrupted::schedule,left,file => writeLoop schedule left file
  | .failed::schedule,_,file => (file,false,schedule)
  | .wrote n::schedule,left,file => writeLoop schedule (left.drop n) (file++left.take n)

def FileWriter.flush (w : FileWriter) : FileWriter :=
  if w.failed || w.buffer.isEmpty then w
  else
    let r := writeLoop w.schedule w.buffer w.file
    ⟨r.1,[],crc64 w.crc w.buffer,!r.2.1,r.2.2⟩

def FileWriter.append (w : FileWriter) (bytes : Bytes) : FileWriter :=
  let w := { w with buffer := w.buffer++bytes }
  if 64*1024 ≤ w.buffer.length then w.flush else w

def selectFrame (index : ℤ) (size expires : ℕ) : Bytes :=
  0xFE::(saveLen (toUnsigned 64 index)++(0xFB::(saveLen size++saveLen expires)))

def entryFrame [FloatText] (key : Bytes) (value : Value) (expireAt : ℤ) : Bytes :=
  (if 0 ≤ expireAt then 0xFC::leBytes 8 (toUnsigned 64 expireAt) else [])++
    (objectType value::(saveString key++saveObjectBody value))

inductive FileCall where
  | selectDb (index : ℤ) (size expires : ℕ)
  | writeEntry (key : Bytes) (value : Value) (expireAt : ℤ)

def FileCall.frame [FloatText] : FileCall → Bytes
  | selectDb index size expires => selectFrame index size expires
  | writeEntry key value expireAt => entryFrame key value expireAt

def FileWriter.run [FloatText] (w : FileWriter) (calls : List FileCall) : FileWriter :=
  calls.foldl (fun w call => w.append call.frame) w

/-- Actual `finish`: the file that takes the path's place, or none when it returns false. The
result of `fsync` is not looked at. -/
def FileWriter.finish (w : FileWriter) (renamed : Bool) : Option Bytes :=
  let buffer := w.buffer++[0xFF]
  let payload := buffer++leBytes 8 (crc64 w.crc buffer).toNat
  if w.failed then none
  else
    let (file,ok,_) := writeLoop w.schedule payload w.file
    if ok && renamed then some file else none

structure Emitted where
  db : ℤ
  key : Bytes
  value : Value
  expireAt : ℤ

inductive LoadOutcome where
  | loaded
  | failed (error : Bytes)
  | raised
deriving DecidableEq,Repr

structure LoadState where
  db : ℤ
  expireAt : ℤ
  emitted : List Emitted
  draws : Draws

def orFail {A : Type} (p : Reader A) (error : Bytes) (bytes : Bytes) :
    Except LoadOutcome (A×Bytes) :=
  match p bytes with
  | .ok r => .ok r
  | .error .rejected => .error (.failed error)
  | .error .raised => .error .raised

def readPair {A : Type} (p : Reader A) : Reader (A×A) := do
  let a ← p
  let b ← p
  pure (a,b)

section Load

variable [FloatText]

def loadOpcode (opcode : UInt8) (s : LoadState) (bytes : Bytes) :
    Except LoadOutcome (LoadState×Bytes) :=
  if opcode=0xFE then do
    let (index,rest) ← orFail readLen (ascii "bad SELECTDB") bytes
    pure ({ s with db := toSigned 32 (index%2^32) },rest)
  else if opcode=0xFB then do
    let (_,rest) ← orFail (readPair readLen) (ascii "bad RESIZEDB") bytes
    pure (s,rest)
  else if opcode=0xFA then do
    let (_,rest) ← orFail (readPair readString) (ascii "bad auxiliary field") bytes
    pure (s,rest)
  else if opcode=0xFC then do
    let (raw,rest) ← orFail (readRaw 8) (ascii "bad expiry") bytes
    pure ({ s with expireAt := toSigned 64 (leValue raw) },rest)
  else if opcode=0xFD then do
    let (raw,rest) ← orFail (readRaw 4) (ascii "bad expiry") bytes
    pure ({ s with expireAt := leValue raw*1000 },rest)
  else if opcode=0xF8 then do
    let (_,rest) ← orFail readLen (ascii "bad IDLE") bytes
    pure (s,rest)
  else if opcode=0xF9 then do
    let (_,rest) ← orFail readByte (ascii "bad FREQ") bytes
    pure (s,rest)
  else if 0xF0 ≤ opcode then
    .error (.failed (ascii "unsupported opcode "++natDecimal opcode.toNat))
  else do
    let (key,rest) ← orFail readString (ascii "bad key") bytes
    let (r,rest) ← orFail (loadObjectBody opcode s.draws)
      (ascii "bad value for key '"++key++ascii "'") rest
    pure ({ s with
      expireAt := -1
      emitted := s.emitted++[⟨s.db,key,r.1,s.expireAt⟩]
      draws := r.2 },rest)

def checkTrailer (contents rest : Bytes) : LoadOutcome :=
  let covered := contents.length-rest.length
  if rest.length < 8 then .failed (ascii "missing checksum")
  else
    let stored := leValue (rest.take 8)
    if stored≠0 && stored≠(crc64 0 (contents.take covered)).toNat then
      .failed (ascii "checksum mismatch")
    else .loaded

def loadLoop (contents : Bytes) : ℕ → LoadState → Bytes → LoadOutcome×LoadState
  | _,s,[] => (.failed (ascii "truncated file"),s)
  | 0,s,_::_ => (.failed (ascii "truncated file"),s)
  | fuel+1,s,opcode::bytes =>
    if opcode=0xFF then (checkTrailer contents bytes,s)
    else
      match loadOpcode opcode s bytes with
      | .error outcome => (outcome,s)
      | .ok (s,rest) => loadLoop contents fuel s rest

/-- `std::atoi` on four bytes: leading digits after blanks and a sign. -/
def atoi (s : Bytes) : ℤ :=
  let s := s.dropWhile isSpace
  let (negative,s) :=
    match s with
    | 45::rest => (true,rest)
    | 43::rest => (false,rest)
    | s => (false,s)
  let magnitude : ℤ := (s.takeWhile isDigit).foldl (fun n c => n*10+(c.toNat-48 : ℕ)) (0 : ℕ)
  if negative then -magnitude else magnitude

def loadFile (contents : Bytes) (draws : Draws) : LoadOutcome×LoadState :=
  let start : LoadState := ⟨0,-1,[],draws⟩
  if contents.length < 9 || contents.take 5≠ascii "REDIS" then
    (.failed (ascii "wrong signature"),start)
  else
    let version := (contents.drop 5).take 4
    if atoi version < 1 || (kRdbVersion : ℤ) < atoi version then
      (.failed (ascii "unsupported RDB version "++version),start)
    else loadLoop contents contents.length start (contents.drop 9)

end Load

end Mnemos.Rdb
