import Mnemos.ByteRegister
import Mnemos.KafkaWire

/-!
# Record batches read back

What is written for a header, a record, the records of a batch and a batch is
read back to the same, whatever follows it.
-/

namespace Mnemos.Kafka

open List

/-! ## What a program takes that can end with an error -/

/-- The program takes exactly these bytes and returns this value, whatever follows. -/
def Accepts {A : Type} (p : Parse A) (bytes : Bytes) (a : A) : Prop := Takes p.run bytes (.ok a)

namespace Accepts

variable {A B : Type}

theorem pure (a : A) : Accepts (Pure.pure a) [] a := fun _ _ => rfl

variable {s : Bytes}

theorem bind {p : Parse A} {f : A → Parse B} {t : Bytes} {a : A} {b : B}
    (hp : Accepts p s a) (hf : Accepts (f a) t b) : Accepts (p >>= f) (s++t) b :=
  Takes.bind (f := ExceptT.bindCont f) hp hf

theorem finish {p : Parse A} {f : A → Parse B} {a : A} {b : B}
    (hp : Accepts p s a) (hf : Accepts (f a) [] b) : Accepts (p >>= f) s b :=
  Takes.finish (f := ExceptT.bindCont f) hp hf

theorem read {p : Decode A} {f : A → Parse B} {t : Bytes} {a : A} {b : B}
    (hp : Takes p s a) (hf : Accepts (f a) t b) :
    Accepts ((liftM p : Parse A) >>= f) (s++t) b :=
  Accepts.bind (hp.map Except.ok) hf

theorem require {condition : Prop} [Decidable condition] {e : ErrorCode} {f : Unit → Parse B}
    {t : Bytes} {b : B} (hc : condition) (hf : Accepts (f ()) t b) :
    Accepts (Parse.require condition e >>= f) t b := by
  rw [Parse.require,if_pos hc]
  exact hf

theorem check {condition : Reader → Prop} [DecidablePred condition] {e : ErrorCode} {q : Parse B} {b : B} (hq : Accepts q s b)
    (h : ∀ r : Reader,r.ok=true → s.length ≤ r.remaining → condition r) :
    Accepts (get >>= fun r => Parse.require (condition r) e >>= fun _ => q) s b := by
  refine Takes.look (p := fun r => (Parse.require (condition r) e >>= fun _ => q).run) hq ?_
  intro r hok hthere
  rw [Parse.require,if_pos (h r hok hthere)]
  rfl

theorem accept {p : Decode (Option A)} {a : A} (hp : Takes p s (some a)) :
    Accepts (Parse.accept p) s a := Accepts.finish (hp.map Except.ok) (Accepts.pure a)

theorem within {p : Parse A} {a : A} (hp : Accepts p s a) :
    Accepts (Parse.within s p) [] a := by
  intro rest position
  have h := hp [] 0
  rw [append_nil] at h
  change ((p.run { left := s }).1,_)=_
  rw [h]
  rfl

end Accepts

/-! ## Headers and records -/

structure RecordHeader.NullEmpty (h : RecordHeader) : Prop where
  value : h.valueNull=true → h.value=[]

structure Record.NullEmpty (r : Record) : Prop where
  key : r.keyNull=true → r.key=[]
  value : r.valueNull=true → r.value=[]
  headers : ∀ h∈r.headers,h.NullEmpty

theorem wrap64_of_fits {v : ℤ} (h : FitsSigned 64 v) : wrap64 v=v :=
  toSigned_toUnsigned (by decide) h

theorem accept_encodeField {null : Bool} {s : Bytes} (hnull : null=true → s=[])
    (hsize : (encodeField null s).length < 2^31) :
    Accepts (Parse.accept Reader.varintBytes) (encodeField null s) (s,null) := by
  cases null with
  | true =>
    rw [hnull rfl]
    exact Accepts.accept Reader.varintBytes_null
  | false =>
    have hlen : (encodeField false s).length=(Writer.varint s.length).length+s.length :=
      length_append
    exact Accepts.accept (Reader.varintBytes_takes (by omega))

theorem encodeHeader_length (h : RecordHeader) :
    h.key.length+(encodeField h.valueNull h.value).length ≤ (encodeHeader h).length := by
  rw [encodeHeader,length_append,length_append]
  omega

variable (hs : List RecordHeader)

theorem decodeHeaders_accepts (done : List RecordHeader) (hnull : ∀ h∈hs,h.NullEmpty)
    (hsize : (hs.flatMap encodeHeader).length < 2^31) :
    Accepts (decodeHeaders hs.length done) (hs.flatMap encodeHeader) (done++hs) := by
  induction hs generalizing done with
  | nil =>
    rw [append_nil]
    exact Accepts.pure done
  | cons h hs ih =>
    rw [flatMap_cons,length_append] at hsize
    have hlen := encodeHeader_length h
    have hrest := ih (done++[h]) (fun x hx => hnull x (mem_cons_of_mem h hx)) (by omega)
    rw [append_assoc] at hrest
    rw [flatMap_cons,encodeHeader,append_assoc]
    refine (Accepts.accept (Reader.varintBytes_takes (by omega))).bind ?_
    refine Accepts.require rfl ?_
    exact (accept_encodeField (hnull h mem_cons_self).value (by omega)).bind hrest

theorem groups_length (passes raw : ℕ) : 0 < (Writer.groups passes raw).length := by
  cases passes with
  | zero => exact one_pos
  | succ passes =>
    rw [Writer.groups]
    split
    · exact Nat.succ_pos _
    · exact one_pos

theorem varint_length (v : ℤ) : 0 < (Writer.varint v).length := groups_length _ _

theorem headers_length :
    hs.length ≤ (hs.flatMap encodeHeader).length := by
  induction hs with
  | nil => exact le_rfl
  | cons h hs ih =>
    have hpos := varint_length h.key.length
    rw [flatMap_cons,length_append,length_cons,encodeHeader,length_append,
      length_append]
    omega

variable {records : List Record} {base : ℤ}

theorem decodeRecord_accepts {i : ℕ} {r : Record} (hbase : 0 ≤ base) (hbase' : base < 2^63)
    (htime : 0 ≤ r.timestamp) (htime' : r.timestamp < 2^63) (hi : i < 2^31) (hnull : r.NullEmpty)
    (hsize : (encodeRecord base i r).length < 2^31) :
    Accepts (decodeRecord base) (encodeRecord base i r) { r with offset := 0 } := by
  have hcount := headers_length r.headers
  have hdelta : FitsSigned 64 (r.timestamp-base) := ⟨by omega,by omega⟩
  have hback : wrap64 (base+wrap64 (r.timestamp-base))=r.timestamp := by
    rw [wrap64_of_fits hdelta,show base+(r.timestamp-base)=r.timestamp by omega,
      wrap64_of_fits ⟨by omega,by omega⟩]
  simp only [encodeRecord,length_append] at hsize
  simp only [encodeRecord,append_assoc]
  refine Accepts.read (Reader.int8_takes (by decide)) ?_
  refine Accepts.read (Reader.varlong_takes (v := wrap64 (r.timestamp-base)) ?_) ?_
  · rwa [wrap64_of_fits hdelta]
  refine Accepts.read (Reader.varint_takes ⟨by omega,by omega⟩) ?_
  refine (accept_encodeField hnull.key (by omega)).bind ?_
  refine (accept_encodeField hnull.value (by omega)).bind ?_
  refine Accepts.read (Reader.varint_takes ⟨by omega,by omega⟩) ?_
  refine Accepts.check ?_ fun r' hok hthere => ⟨hok,by omega,by omega⟩
  refine (decodeHeaders_accepts r.headers [] hnull.headers (by omega)).finish ?_
  refine Accepts.check ?_ fun r' hok _ => hok
  rw [hback]
  exact Accepts.pure _

theorem decodeFramed_accepts {body : Bytes} {r : Record} (hsize : body.length < 2^31)
    (h : Accepts (decodeRecord base) body r) :
    Accepts (decodeFramed base) (encodeFramed body) r := by
  refine Accepts.read (Reader.varint_takes ⟨by omega,by omega⟩) ?_
  refine Accepts.check ?_ fun r' hok _ => ⟨hok,by omega⟩
  exact (Accepts.accept (Reader.take_takes rfl)).finish h.within

/-! ## The records of a batch -/

/-- What reading gives for a record: the offset is the broker's to assign. -/
def Record.received (r : Record) : Record := { r with offset := 0 }

structure Record.Sound (r : Record) : Prop where
  time : 0 ≤ r.timestamp
  time' : r.timestamp < 2^63
  null : r.NullEmpty

theorem decodeRecords_zero (base : ℤ) (out : List Record) :
    Takes (decodeRecords base 0 out) [] (.none,out) := by
  refine (Takes.pure (ErrorCode.none,out)).look fun r hok _ => ?_
  rw [hok]
  rfl

theorem decodeRecords_takes (out : List Record) {i : ℕ}
    (hbase : records≠[] → 0 ≤ base ∧ base < 2^63) (hsound : ∀ r∈records,r.Sound)
    (hsize : i+(encodeRecords base i records).length < 2^31) :
    Takes (decodeRecords base records.length out) (encodeRecords base i records)
      (.none,out++records.map Record.received) := by
  induction records generalizing i out with
  | nil =>
    rw [map_nil,append_nil]
    exact decodeRecords_zero base out
  | cons r records ih =>
    have hr := hsound r mem_cons_self
    have hpos := varint_length (encodeRecord base i r).length
    obtain ⟨hlow,hhigh⟩ := hbase (cons_ne_nil r records)
    rw [encodeRecords,length_append,encodeFramed,length_append] at hsize
    have hrest := ih (out++[r.received]) (i := i+1) (fun _ => ⟨hlow,hhigh⟩)
      (fun x hx => hsound x (mem_cons_of_mem r hx)) (by omega)
    rw [append_assoc] at hrest
    have hone : Accepts (decodeFramed base) (encodeFramed (encodeRecord base i r)) r.received :=
      decodeFramed_accepts (by omega) (decodeRecord_accepts hlow hhigh hr.time hr.time'
        (by omega) hr.null (by omega))
    exact Takes.bind hone hrest

theorem encodeRecords_length (base : ℤ) (records : List Record) (i : ℕ) :
    records.length ≤ (encodeRecords base i records).length := by
  induction records generalizing i with
  | nil => exact le_rfl
  | cons r records ih =>
    have hpos := varint_length (encodeRecord base i r).length
    have hrest := ih (i+1)
    rw [encodeRecords,length_append,encodeFramed,length_append,length_cons]
    omega

/-! ## A batch -/

def baseTime (records : List Record) : ℤ := (records.head?.map Record.timestamp).getD (-1)

def maxTime (records : List Record) : ℤ :=
  records.foldl (fun m r => if m < r.timestamp then r.timestamp else m) (baseTime records)

def coveredBytes (records : List Record) : Bytes :=
  Writer.int16 0++(Writer.int32 (records.length-1 : ℕ)++(Writer.int64 (baseTime records)++
    (Writer.int64 (maxTime records)++(Writer.int64 (-1)++(Writer.int16 (-1)++(Writer.int32 (-1)++
      (Writer.int32 records.length++encodeRecords (baseTime records) 0 records)))))))

theorem coveredBytes_length (records : List Record) :
    (coveredBytes records).length=40+(encodeRecords (baseTime records) 0 records).length := by
  simp [coveredBytes]
  omega

def batchFront (baseOffset size : ℤ) : Bytes :=
  Writer.int64 baseOffset++(Writer.int32 size++(Writer.int32 0++Writer.int8 kMagicV2))

variable (baseOffset : ℤ)

theorem batchFront_length (size : ℤ) : (batchFront baseOffset size).length=17 := by
  simp [batchFront]

theorem patchInt32_batchFront (size : ℤ) (rest : Bytes) :
    Writer.patchInt32 (batchFront baseOffset 0++rest) 8 size=batchFront baseOffset size++rest := by
  simp only [Writer.patchInt32,batchFront,append_assoc]
  exact Writer.patchUint32_append (Writer.int64_length _) (Writer.int32_length _)

theorem encodeRecordBatch_eq (records : List Record) :
    encodeRecordBatch baseOffset records=
      batchFront baseOffset (9+(coveredBytes records).length : ℕ)++
        (Writer.uint32 (crc32c 0 (coveredBytes records)).toNat++coveredBytes records) := by
  have hpatched : encodeRecordBatch baseOffset records=
      (let plain := batchFront baseOffset 0++(Writer.int32 0++coveredBytes records)
      let w := Writer.patchInt32 plain 8 (plain.length-12 : ℕ)
      Writer.patchUint32 w 17 (crc32c 0 (w.drop 21)).toNat) := by
    simp only [encodeRecordBatch,batchFront,coveredBytes,baseTime,maxTime,append_assoc,
      length_append,Writer.int8_length,Writer.int32_length,Writer.int64_length]
  have hsize : (batchFront baseOffset 0++(Writer.int32 0++coveredBytes records)).length-12=
      9+(coveredBytes records).length := by
    rw [length_append,batchFront_length,length_append,Writer.int32_length]
    omega
  have hcovered : (batchFront baseOffset (9+(coveredBytes records).length : ℕ)++
      (Writer.int32 0++coveredBytes records)).drop 21=coveredBytes records := by
    rw [← append_assoc]
    exact drop_left' (by rw [length_append,batchFront_length,Writer.int32_length])
  rw [hpatched]
  dsimp only
  rw [hsize,patchInt32_batchFront,hcovered]
  exact Writer.patchUint32_append (batchFront_length _ _) (Writer.int32_length _)

theorem encodeRecordBatch_length (records : List Record) :
    (encodeRecordBatch baseOffset records).length=
      61+(encodeRecords (baseTime records) 0 records).length := by
  rw [encodeRecordBatch_eq,length_append,length_append,batchFront_length,
    Writer.uint32_length,coveredBytes_length]
  omega

def Yields {A : Type} (p : Parse A) (r : Reader) (a : A) : Prop := (p.run r).1=.ok a

namespace Yields

variable {A B : Type} {r r' : Reader} {b : B}

theorem read {p : Decode A} {f : A → Parse B} {a : A} (hp : p r=(a,r')) (hf : Yields (f a) r' b) :
    Yields ((liftM p : Parse A) >>= f) r b := by
  change (ExceptT.bindCont f (.ok (p r).1) (p r).2).1=_
  rw [hp]
  exact hf

theorem look {f : Reader → Parse B} (hf : Yields (f r) r b) : Yields (get >>= f) r b := hf

theorem require {condition : Prop} [Decidable condition] {e : ErrorCode} {f : Unit → Parse B}
    (hc : condition) (hf : Yields (f ()) r b) : Yields (Parse.require condition e >>= f) r b := by
  rw [Parse.require,if_pos hc]
  exact hf

end Yields

theorem encodeRecordBatch_fields (records : List Record) (rest : Bytes) :
    encodeRecordBatch baseOffset records++rest=
      Writer.int64 baseOffset++(Writer.int32 (9+(coveredBytes records).length : ℕ)++
        (Writer.int32 0++(Writer.int8 kMagicV2++
          (Writer.uint32 (crc32c 0 (coveredBytes records)).toNat++(Writer.int16 0++
            (Writer.int32 (records.length-1 : ℕ)++(Writer.int64 (baseTime records)++
              (Writer.int64 (maxTime records)++(Writer.int64 (-1)++(Writer.int16 (-1)++
                (Writer.int32 (-1)++(Writer.int32 records.length++
                  (encodeRecords (baseTime records) 0 records++rest))))))))))))) := by
  rw [encodeRecordBatch_eq,batchFront]
  generalize crc32c 0 (coveredBytes records)=crc
  generalize (9+(coveredBytes records).length : ℕ)=size
  simp only [coveredBytes,append_assoc]

theorem decodeBatchHeader_encoded (records : List Record) (rest : Bytes)
    (hbase : FitsSigned 64 (baseTime records)) (hcount : records.length < 2^31)
    (hsize : (encodeRecordBatch baseOffset records).length < 2^31) :
    Yields (decodeBatchHeader (encodeRecordBatch baseOffset records++rest))
      { left := encodeRecordBatch baseOffset records++rest }
      { batchEnd := (encodeRecordBatch baseOffset records).length
        recordsAt := 61
        baseTimestamp := baseTime records
        count := records.length } := by
  have hlen := encodeRecordBatch_length baseOffset records
  have hcovered := coveredBytes_length records
  have hcrc : ((encodeRecordBatch baseOffset records++rest).take
      (encodeRecordBatch baseOffset records).length).drop 21=coveredBytes records := by
    rw [take_left' rfl,encodeRecordBatch_eq,← append_assoc]
    exact drop_left' (by rw [length_append,batchFront_length,Writer.uint32_length])
  have hall : (encodeRecordBatch baseOffset records++rest).length=
      (encodeRecordBatch baseOffset records).length+rest.length := length_append
  have hfields := encodeRecordBatch_fields baseOffset records rest
  generalize encodeRecordBatch baseOffset records++rest=blob at *
  have hreader := congrArg (fun s => ({ left := s } : Reader)) hfields
  rw [hreader]
  refine Yields.require (by rw [kBatchHeaderSize]; omega) ?_
  refine Yields.read (Reader.int64_takes_any _ _ _) ?_
  refine Yields.read (Reader.int32_takes ⟨by omega,by omega⟩ _ _) ?_
  refine Yields.look (Yields.require ⟨rfl,by omega⟩ ?_)
  dsimp only
  rw [Writer.int64_length,Writer.int32_length]
  refine Yields.require (by omega) ?_
  refine Yields.read (Reader.int32_takes (by decide) _ _) ?_
  refine Yields.read (Reader.int8_takes (by decide) _ _) ?_
  refine Yields.require rfl ?_
  refine Yields.read (Reader.uint32_takes (UInt32.toNat_lt _) _ _) ?_
  refine Yields.look (Yields.require ⟨rfl,by rw [kCrcCoverageStart]; omega⟩ ?_)
  have hend : 0+8+4+(9+(coveredBytes records).length : ℕ)=
      (encodeRecordBatch baseOffset records).length := by omega
  rw [Int.toNat_natCast,hend]
  refine Yields.require (by rw [kCrcCoverageStart,hcrc]) ?_
  refine Yields.read (Reader.int16_takes (by decide) _ _) ?_
  refine Yields.require (by decide) ?_
  refine Yields.read (Reader.int32_takes ⟨by omega,by omega⟩ _ _) ?_
  refine Yields.read (Reader.int64_takes hbase _ _) ?_
  refine Yields.read (Reader.int64_takes_any _ _ _) ?_
  refine Yields.read (Reader.int64_takes_any _ _ _) ?_
  refine Yields.read (Reader.int16_takes (by decide) _ _) ?_
  refine Yields.read (Reader.int32_takes (by decide) _ _) ?_
  refine Yields.read (Reader.int32_takes ⟨by omega,by omega⟩ _ _) ?_
  refine Yields.look (Yields.require ⟨rfl,by omega⟩ ?_)
  dsimp only
  rw [Int.toNat_natCast]
  refine Yields.require ?_ (congrArg Except.ok ?_)
  · simp
    omega
  · simp

/-! ## A request's batches -/

theorem baseTime_mem (h : records≠[]) :
    ∃ r∈records,baseTime records=r.timestamp := by
  cases records with
  | nil => exact absurd rfl h
  | cons r records => exact ⟨r,mem_cons_self,rfl⟩

theorem baseTime_fits (hsound : ∀ r∈records,r.Sound) :
    FitsSigned 64 (baseTime records) := by
  by_cases h : records=[]
  · rw [h]
    decide
  · obtain ⟨r,hr,htime⟩ := baseTime_mem h
    have hlow := (hsound r hr).time
    have hhigh := (hsound r hr).time'
    rw [htime]
    exact ⟨by omega,by omega⟩

theorem decodeBatches_encoded (rest : Bytes) (passes : ℕ) (out : List Record)
    (hsound : ∀ r∈records,r.Sound) (hsize : (encodeRecordBatch baseOffset records).length < 2^31) :
    decodeBatches (passes+1) (encodeRecordBatch baseOffset records++rest) out=
      decodeBatches passes rest (out++records.map Record.received) := by
  have hlen := encodeRecordBatch_length baseOffset records
  have hcount := encodeRecords_length (baseTime records) records 0
  have hheader := decodeBatchHeader_encoded baseOffset records rest (baseTime_fits hsound)
    (by omega) hsize
  have hne : encodeRecordBatch baseOffset records++rest≠[] := by
    intro h
    have hzero := congrArg List.length h
    rw [length_append,length_nil] at hzero
    omega
  have harea : (encodeRecordBatch baseOffset records).drop 61=
      encodeRecords (baseTime records) 0 records := by
    have hfields := encodeRecordBatch_fields baseOffset records []
    rw [append_nil,append_nil] at hfields
    rw [hfields]
    simp only [← append_assoc]
    exact drop_left' (by simp)
  have hbase : records≠[] → 0 ≤ baseTime records ∧ baseTime records < 2^63 := by
    intro h
    obtain ⟨r,hr,htime⟩ := baseTime_mem h
    rw [htime]
    exact ⟨(hsound r hr).time,(hsound r hr).time'⟩
  have hrecords := decodeRecords_takes out (i := 0) hbase hsound (by omega) [] 0
  rw [append_nil] at hrecords
  rw [decodeBatches,if_neg hne,show (decodeBatchHeader _ _).1=_ from hheader]
  dsimp only
  rw [take_left' rfl,harea,hrecords]
  dsimp only
  rw [if_pos rfl,drop_left' rfl]

/-- The batches of a request are read back to their records, whatever bytes these hold. -/
theorem decodeRecordBatches_encodeRecordBatch (batches : List (ℤ×List Record)) (out : List Record)
    (hsound : ∀ b∈batches,∀ r∈b.2,r.Sound)
    (hsize : ∀ b∈batches,(encodeRecordBatch b.1 b.2).length < 2^31) :
    decodeRecordBatches (batches.flatMap fun b => encodeRecordBatch b.1 b.2) out=
      (.none,out++batches.flatMap fun b => b.2.map Record.received) := by
  -- A pass takes a batch, and there are at least as many bytes as batches.
  suffices h : ∀ passes,(batches.flatMap fun b => encodeRecordBatch b.1 b.2).length ≤ passes →
      decodeBatches passes (batches.flatMap fun b => encodeRecordBatch b.1 b.2) out=
        (.none,out++batches.flatMap fun b => b.2.map Record.received) from h _ le_rfl
  induction batches generalizing out with
  | nil =>
    intro passes _
    rw [flatMap_nil,flatMap_nil,append_nil]
    cases passes with
    | zero => rfl
    | succ passes => rw [decodeBatches,if_pos rfl]
  | cons b batches ih =>
    intro passes hpasses
    have hlen := encodeRecordBatch_length b.1 b.2
    rw [flatMap_cons,length_append] at hpasses
    obtain ⟨passes,rfl⟩ : ∃ n,passes=n+1 := ⟨passes-1,by omega⟩
    rw [flatMap_cons,flatMap_cons,decodeBatches_encoded b.1 _ passes out
      (hsound b mem_cons_self) (hsize b mem_cons_self),← append_assoc]
    exact ih (out++b.2.map Record.received)
      (fun x hx => hsound x (mem_cons_of_mem b hx))
      (fun x hx => hsize x (mem_cons_of_mem b hx)) passes (by omega)

def tombstone : Record :=
  { timestamp := 1700000000000, key := ascii "user", keyNull := false
    headers := [{ key := ascii "trace", value := [0,255] }] }

theorem tombstone_sound : tombstone.Sound where
  time := by decide
  time' := by decide
  null := ⟨by decide,fun _ => rfl,fun _ hh => by
    rw [mem_singleton.mp hh]
    exact ⟨by decide⟩⟩

theorem decodeRecordBatches_tombstones :
    decodeRecordBatches ([(7,[tombstone,tombstone]),(9,[])].flatMap fun b : ℤ×List Record =>
      encodeRecordBatch b.1 b.2) []=(.none,[tombstone,tombstone]) :=
  decodeRecordBatches_encodeRecordBatch [(7,[tombstone,tombstone]),(9,[])] []
    (by
      intro b hb r hr
      have hb' : b=(7,[tombstone,tombstone]) ∨ b=(9,[]) := by simpa using hb
      have hr' : r=tombstone := by
        cases hb' with
        | inl h => simpa [h] using hr
        | inr h => simp [h] at hr
      rw [hr']
      exact tombstone_sound)
    (by
      intro b hb
      rw [encodeRecordBatch_length]
      have hb' : b=(7,[tombstone,tombstone]) ∨ b=(9,[]) := by simpa using hb
      cases hb' with
      | inl h => rw [h]; decide +kernel
      | inr h => rw [h]; decide +kernel)

/-! ## Stored records read back -/

/-- The program takes exactly these bytes and returns this value, whatever follows. -/
def Gives {A : Type} (p : OptionT Decode A) (bytes : Bytes) (a : A) : Prop :=
  Takes p.run bytes (some a)

namespace Gives

variable {A B : Type}

theorem pure (a : A) : Gives (Pure.pure a) [] a := fun _ _ => rfl

theorem bind {p : OptionT Decode A} {f : A → OptionT Decode B} {s t : Bytes} {a : A} {b : B}
    (hp : Gives p s a) (hf : Gives (f a) t b) : Gives (p >>= f) (s++t) b := by
  have h : Takes (Option.elimM p.run (Pure.pure none) fun a => (f a).run) (s++t) (some b) :=
    Takes.bind (f := fun o : Option A => o.elim (Pure.pure none) fun a => (f a).run) hp hf
  rwa [← OptionT.run_bind] at h

theorem read {p : Decode A} {f : A → OptionT Decode B} {s t : Bytes} {a : A} {b : B}
    (hp : Takes p s a) (hf : Gives (f a) t b) : Gives (OptionT.lift p >>= f) (s++t) b :=
  Gives.bind (hp.map some) hf

theorem require {condition : Prop} [Decidable condition] {f : Unit → OptionT Decode B} {t : Bytes}
    {b : B} (hc : condition) (hf : Gives (f ()) t b) : Gives (guard condition >>= f) t b := by
  rw [guard,if_pos hc]
  exact hf

theorem check {condition : Reader → Prop} [DecidablePred condition] {q : OptionT Decode B}
    {s : Bytes} {b : B} (hq : Gives q s b)
    (h : ∀ r : Reader,r.ok=true → s.length ≤ r.remaining → condition r) :
    Gives (get >>= fun r => guard (condition r) >>= fun _ => q) s b := by
  refine Takes.look (p := fun r => (guard (condition r) >>= fun _ => q : OptionT Decode B).run) hq ?_
  intro r hok hthere
  rw [guard,if_pos (h r hok hthere)]
  rfl

end Gives

theorem nullableBytes_storedField {null : Bool} {s : Bytes} (hnull : null=true → s=[])
    (hsize : (storedField null s).length < 2^31) :
    Takes Reader.nullableBytes (storedField null s) (if null then none else some s) := by
  cases null with
  | true => exact Reader.nullableBytes_null
  | false =>
    have hlen : (storedField false s).length=4+s.length := by
      rw [storedField,if_neg Bool.false_ne_true,Writer.bytes,length_append,
        Writer.int32_length]
    exact Reader.nullableBytes_takes (by omega)

theorem storedField_value {null : Bool} {s : Bytes} (hnull : null=true → s=[]) :
    (if null then none else some s).getD []=s ∧ (if null then none else some s).isNone=null := by
  cases null with
  | true => exact ⟨(hnull rfl).symm,rfl⟩
  | false => exact ⟨rfl,rfl⟩

theorem storedHeader_length (h : RecordHeader) :
    4+h.key.length+(storedField h.valueNull h.value).length=(storedHeader h).length := by
  rw [storedHeader,length_append,Writer.bytes,length_append,Writer.int32_length]

theorem decodeStoredHeaders_gives (done : List RecordHeader) (hnull : ∀ h∈hs,h.NullEmpty)
    (hsize : (hs.flatMap storedHeader).length < 2^31) :
    Gives (decodeStoredHeaders hs.length done) (hs.flatMap storedHeader) (done++hs) := by
  induction hs generalizing done with
  | nil =>
    rw [append_nil]
    exact Gives.pure done
  | cons h hs ih =>
    rw [flatMap_cons,length_append] at hsize
    have hlen := storedHeader_length h
    have hvalue := storedField_value (hnull h mem_cons_self).value
    have hrest := ih (done++[h]) (fun x hx => hnull x (mem_cons_of_mem h hx)) (by omega)
    rw [append_assoc] at hrest
    rw [flatMap_cons,storedHeader,append_assoc]
    refine Gives.bind (p := OptionT.mk Reader.nullableBytes)
      (Reader.nullableBytes_takes (by omega)) ?_
    refine Gives.read (nullableBytes_storedField (hnull h mem_cons_self).value (by omega)) ?_
    rw [hvalue.1,hvalue.2]
    exact hrest

theorem storedHeaders_length :
    hs.length ≤ (hs.flatMap storedHeader).length := by
  induction hs with
  | nil => exact le_rfl
  | cons h hs ih =>
    have hlen := storedHeader_length h
    rw [flatMap_cons,length_append,length_cons]
    omega

structure Record.Storable (r : Record) : Prop where
  time : FitsSigned 64 r.timestamp
  null : r.NullEmpty
  size : (encodeStoredRecord r).length < 2^31

theorem decodeStoredRecord_encodeStoredRecord {r : Record} (h : r.Storable) :
    decodeStoredRecord (encodeStoredRecord r)=some r.received := by
  have hcount := storedHeaders_length r.headers
  have hkey := storedField_value h.null.key
  have hvalue := storedField_value h.null.value
  have hsize := h.size
  simp only [encodeStoredRecord,length_append] at hsize
  have hgives : Gives storedRecord (encodeStoredRecord r) r.received := by
    simp only [encodeStoredRecord,append_assoc]
    refine Gives.read (Reader.int8_takes (by decide)) (Gives.require rfl ?_)
    refine Gives.read (Reader.int64_takes h.time) ?_
    refine Gives.read (nullableBytes_storedField h.null.key (by omega)) ?_
    refine Gives.read (nullableBytes_storedField h.null.value (by omega)) ?_
    refine Gives.read (Reader.int32_takes ⟨by omega,by omega⟩) ?_
    refine Gives.check ?_ fun r' hok hthere => ⟨hok,by omega,by omega⟩
    rw [← append_nil (r.headers.flatMap storedHeader)]
    refine (decodeStoredHeaders_gives r.headers [] h.null.headers (by omega)).bind ?_
    refine Gives.check ?_ fun r' hok _ => hok
    rw [hkey.1,hkey.2,hvalue.1,hvalue.2]
    exact Gives.pure _
  have hread := hgives [] 0
  rw [append_nil] at hread
  exact congrArg Prod.fst hread

end Mnemos.Kafka

/-! ## The checksum of a batch -/

open List ShiftRegister

namespace Mnemos.Kafka

/-! ## The register -/

def castagnoli : BitVec 32 := 0x82f63b78#32

theorem castagnoli_msb : castagnoli.msb=true := by decide

theorem crc32cEntry_toBitVec (bits : ℕ) (crc : UInt32) :
    (crc32cEntry bits crc).toBitVec=(shift castagnoli)^[bits] crc.toBitVec := by
  induction bits generalizing crc with
  | zero => rfl
  | succ bits ih =>
    have hlow : crc&&&1=if crc.toBitVec.getLsbD 0 then 1 else 0 := by
      apply UInt32.toBitVec_inj.mp
      rw [UInt32.toBitVec_and]
      have h := BitVec.and_one_eq_setWidth_ofBool_getLsbD (x := crc.toBitVec)
      cases hbit : crc.toBitVec.getLsbD 0 with
      | false => rw [hbit] at h; exact h
      | true => rw [hbit] at h; exact h
    rw [crc32cEntry,ih,Function.iterate_succ_apply,shift,hlow]
    cases crc.toBitVec.getLsbD 0 with
    | false =>
      rw [if_neg (by decide),if_neg (by decide),BitVec.xor_zero]
      rfl
    | true =>
      rw [if_pos rfl,if_pos rfl]
      rfl

theorem get_ofFn {A : Type} {n : ℕ} (f : Fin n → A) (i : Fin n) : (Vector.ofFn f).get i=f i :=
  Array.getElem_ofFn _

theorem crc32cStep_toBitVec (crc : UInt32) (byte : UInt8) :
    (crc32cStep crc byte).toBitVec=feed castagnoli 8 crc.toBitVec (byteSymbol 32 byte) := by
  have hlow : (UInt32.ofNat ((crc^^^byte.toUInt32).toNat%256)).toBitVec=
      (crc.toBitVec^^^byteSymbol 32 byte)&&&BitVec.ofNat 32 (2^8-1) := by
    apply BitVec.eq_of_toNat_eq
    rw [BitVec.toNat_and]
    change (crc^^^byte.toUInt32).toNat%256%2^32=(crc^^^byte.toUInt32).toNat&&&(2^8-1)
    rw [Nat.and_two_pow_sub_one_eq_mod]
    omega
  have hshift : (crc >>> 8).toBitVec=(crc.toBitVec^^^byteSymbol 32 byte) >>> 8 := by
    rw [BitVec.ushiftRight_xor_distrib,byteSymbol_ushiftRight,BitVec.xor_zero,
      UInt32.toBitVec_shiftRight]
    rfl
  rw [feed,iterate_shift_eq,crc32cStep,kCrc32cTable,get_ofFn,UInt32.toBitVec_xor,hshift,← hlow,
    ← crc32cEntry_toBitVec]
  rfl

theorem crc32cSteps_toBitVec (crc : UInt32) (data : Bytes) :
    (data.foldl crc32cStep crc).toBitVec=
      feedAll castagnoli 8 crc.toBitVec (data.map (byteSymbol 32)) := by
  induction data generalizing crc with
  | nil => rfl
  | cons b data ih =>
    rw [foldl_cons,ih,crc32cStep_toBitVec]
    rfl

theorem eq_of_crc32c_eq {crc : UInt32} {before u v after : Bytes} (hlen : u.length=v.length)
    (hburst : u.length ≤ 4) (h : crc32c crc (before++u++after)=crc32c crc (before++v++after)) :
    u=v := by
  have hfeed := congrArg UInt32.toBitVec (UInt32.not_inj.mp h)
  rw [crc32cSteps_toBitVec,crc32cSteps_toBitVec] at hfeed
  exact eq_of_feedAll_eq castagnoli_msb hlen (by omega) _ before after hfeed

/-! ## A batch that is not as it was written -/

def Fails {A : Type} (p : Parse A) (r : Reader) (e : ErrorCode) : Prop := (p.run r).1=.error e

namespace Fails

variable {A B : Type} {r r' : Reader} {e : ErrorCode}

theorem read {p : Decode A} {f : A → Parse B} {a : A} (hp : p r=(a,r')) (hf : Fails (f a) r' e) :
    Fails ((liftM p : Parse A) >>= f) r e := by
  change (ExceptT.bindCont f (.ok (p r).1) (p r).2).1=_
  rw [hp]
  exact hf

theorem look {f : Reader → Parse B} (hf : Fails (f r) r e) : Fails (get >>= f) r e := hf

theorem require {condition : Prop} [Decidable condition] {e' : ErrorCode} {f : Unit → Parse B}
    (hc : condition) (hf : Fails (f ()) r e) : Fails (Parse.require condition e' >>= f) r e := by
  rw [Parse.require,if_pos hc]
  exact hf

theorem refuse {condition : Prop} [Decidable condition] {f : Unit → Parse B}
    (hc : ¬condition) : Fails (Parse.require condition e >>= f) r e := by
  rw [Parse.require,if_neg hc]
  rfl

end Fails

theorem decodeRecordBatches_fails {blob : Bytes} {e : ErrorCode} (hsome : blob≠[])
    (h : Fails (decodeBatchHeader blob) { left := blob } e) (out : List Record) :
    decodeRecordBatches blob out=(e,out) := by
  obtain ⟨b,blob,rfl⟩ := exists_cons_of_ne_nil hsome
  rw [decodeRecordBatches,length_cons,decodeBatches,if_neg hsome,
    show (decodeBatchHeader (b::blob) { left := b::blob }).1=.error e from h]

def batchBytes (baseOffset : ℤ) (size : ℕ) (crc : UInt32) (covered : Bytes) : Bytes :=
  batchFront baseOffset size++(Writer.uint32 crc.toNat++covered)

section Damaged

variable (baseOffset : ℤ) (size : ℕ) (crc : UInt32) (covered : Bytes)

theorem batchBytes_length : (batchBytes baseOffset size crc covered).length=21+covered.length := by
  rw [batchBytes,length_append,length_append,batchFront_length,Writer.uint32_length]
  omega

theorem batchBytes_drop : (batchBytes baseOffset size crc covered).drop 21=covered := by
  rw [batchBytes,← append_assoc]
  exact drop_left' (by rw [length_append,batchFront_length,Writer.uint32_length])

theorem batchBytes_take : (batchBytes baseOffset size crc covered).take 21=
    batchFront baseOffset size++Writer.uint32 crc.toNat := by
  rw [batchBytes,← append_assoc]
  exact take_left' (by rw [length_append,batchFront_length,Writer.uint32_length])

theorem batchBytes_fields : batchBytes baseOffset size crc covered=
    Writer.int64 baseOffset++(Writer.int32 size++(Writer.int32 0++
      (Writer.int8 kMagicV2++(Writer.uint32 crc.toNat++covered)))) := by
  simp only [batchBytes,batchFront,append_assoc]

variable {size crc covered}

theorem decodeRecordBatches_damaged (hsize : size < 2^31) (hlen : 9+covered.length=size)
    (hlong : 40 ≤ covered.length) (hcrc : crc32c 0 covered≠crc) (out : List Record) :
    decodeRecordBatches (batchBytes baseOffset size crc covered) out=
      (.kafkaStorageError,out) := by
  have hblob := batchBytes_length baseOffset size crc covered
  have hcovered := batchBytes_drop baseOffset size crc covered
  have hfields := batchBytes_fields baseOffset size crc covered
  generalize batchBytes baseOffset size crc covered=blob at *
  refine decodeRecordBatches_fails (fun h => by rw [h,length_nil] at hblob; omega) ?_ out
  rw [congrArg (fun s => ({ left := s } : Reader)) hfields]
  refine Fails.require (by rw [kBatchHeaderSize]; omega) ?_
  refine Fails.read (Reader.int64_takes_any _ _ _) ?_
  refine Fails.read (Reader.int32_takes ⟨by omega,by omega⟩ _ _) ?_
  refine Fails.look (Fails.require ⟨rfl,by omega⟩ ?_)
  dsimp only
  rw [Writer.int64_length,Writer.int32_length]
  refine Fails.require (by omega) ?_
  refine Fails.read (Reader.int32_takes (by decide) _ _) ?_
  refine Fails.read (Reader.int8_takes (by decide) _ _) ?_
  refine Fails.require rfl ?_
  refine Fails.read (Reader.uint32_takes (UInt32.toNat_lt _) _ _) ?_
  refine Fails.look (Fails.require ⟨rfl,by rw [kCrcCoverageStart]; omega⟩ ?_)
  rw [Int.toNat_natCast,take_of_length_le (by omega),kCrcCoverageStart,hcovered]
  exact Fails.refuse fun h => hcrc (UInt32.toNat_inj.mp h)

theorem decodeRecordBatches_wrapped (hsize : 2^31 ≤ size) (hsize' : size < 2^32)
    (hlong : 40 ≤ covered.length) (out : List Record) :
    decodeRecordBatches (batchBytes baseOffset size crc covered) out=(.invalidRequest,out) := by
  have hblob := batchBytes_length baseOffset size crc covered
  have hfields := batchBytes_fields baseOffset size crc covered
  have hwraps : Writer.int32 size=Writer.int32 (size-2^32 : ℤ) :=
    congrArg (beBytes 4) (by unfold toUnsigned; omega)
  rw [hwraps] at hfields
  generalize batchBytes baseOffset size crc covered=blob at *
  refine decodeRecordBatches_fails (fun h => by rw [h,length_nil] at hblob; omega) ?_ out
  rw [congrArg (fun s => ({ left := s } : Reader)) hfields]
  refine Fails.require (by rw [kBatchHeaderSize]; omega) ?_
  refine Fails.read (Reader.int64_takes_any _ _ _) ?_
  refine Fails.read (Reader.int32_takes ⟨by omega,by omega⟩ _ _) ?_
  exact Fails.look (Fails.refuse fun h => absurd h.2 (by omega))

end Damaged

variable {baseOffset : ℤ} {records : List Record}

/-- **Checksums**: a batch that is damaged inside four consecutive bytes behind its checksum gives
the storage error and no record. -/
theorem decodeRecordBatches_burst
    (hsize : (encodeRecordBatch baseOffset records).length < 2^31+12) {q : Bytes}
    (hlen : q.length=(encodeRecordBatch baseOffset records).length)
    (hne : q≠encodeRecordBatch baseOffset records) (i : ℕ) (hi : 21 ≤ i)
    (hwindow : q.take i=(encodeRecordBatch baseOffset records).take i)
    (hwindow' : q.drop (i+4)=(encodeRecordBatch baseOffset records).drop (i+4))
    (out : List Record) : decodeRecordBatches q out=(.kafkaStorageError,out) := by
  have hbatch : encodeRecordBatch baseOffset records=
      batchBytes baseOffset (9+(coveredBytes records).length)
        (crc32c 0 (coveredBytes records)) (coveredBytes records) :=
    encodeRecordBatch_eq baseOffset records
  have hlong := coveredBytes_length records
  rw [hbatch] at hsize hlen hne hwindow hwindow'
  clear hbatch
  generalize coveredBytes records=covered at *
  rw [batchBytes_length] at hsize hlen
  -- what lies before the window's first possible place is as it was written
  have hfront : q.take 21=(batchBytes baseOffset (9+covered.length) (crc32c 0 covered)
      covered).take 21 := by
    have h := congrArg (take 21) hwindow
    rwa [take_take,take_take,Nat.min_eq_left hi] at h
  have hq : q=batchBytes baseOffset (9+covered.length) (crc32c 0 covered) (q.drop 21) := by
    rw [batchBytes_take] at hfront
    rw [batchBytes,← append_assoc,← hfront,take_append_drop]
  have hdrop : (q.drop 21).length=covered.length := by
    rw [length_drop]
    omega
  have hcrc : crc32c 0 (q.drop 21)≠crc32c 0 covered := by
    intro h
    have hbefore : (q.drop 21).take (i-21)=covered.take (i-21) := by
      have h := congrArg (drop 21) hwindow
      rwa [drop_take,drop_take,batchBytes_drop] at h
    have hbehind : (q.drop 21).drop (i-21+4)=covered.drop (i-21+4) := by
      have hplace : i+4=21+(i-21+4) := by omega
      rw [hplace,← drop_drop,← drop_drop (l := batchBytes _ _ _ _),batchBytes_drop] at hwindow'
      exact hwindow'
    have hparts := window_parts (i-21) 4
    rw [hparts (q.drop 21),hparts covered,hbefore,hbehind] at h
    have hsame := eq_of_crc32c_eq (by simp only [length_take,hdrop,length_drop])
      (length_take_le 4 _) h
    apply hne
    rw [hq,hparts (q.drop 21),hbefore,hbehind,hsame,← hparts covered]
  rw [hq]
  exact decodeRecordBatches_damaged _ (by omega) (by rw [hdrop]) (by omega) hcrc out

theorem decodeRecordBatches_burst_tombstone :
    decodeRecordBatches ((encodeRecordBatch 0 [tombstone]).set 22 8) []=(.kafkaStorageError,[]) :=
  @decodeRecordBatches_burst 0 [tombstone] (by decide +kernel) _ (by rw [length_set]) (by decide +kernel) 21 le_rfl
    (by decide +kernel) (by decide +kernel) []

/-! ## A batch that is too long -/

theorem groups_length_le (passes raw : ℕ) : (Writer.groups passes raw).length ≤ passes+1 := by
  induction passes generalizing raw with
  | zero => exact le_rfl
  | succ passes ih =>
    rw [Writer.groups]
    split
    · exact Nat.succ_le_succ (ih _)
    · rw [length_singleton]
      omega

theorem varint_length_le (v : ℤ) : (Writer.varint v).length ≤ 10 := groups_length_le 9 _

theorem coveredBytes_value (value : Bytes) :
    let covered := coveredBytes [{ value, valueNull := false }]
    value.length ≤ covered.length ∧ covered.length ≤ value.length+200 := by
  have hvarint := varint_length_le
  have hvarlong : ∀ v,(Writer.varlong v).length ≤ 10 := fun v => groups_length_le 9 _
  simp only [coveredBytes_length,encodeRecords,encodeFramed,encodeRecord,encodeField,
    length_append,if_true,Bool.false_eq_true,if_false,flatMap_nil,length_nil,Writer.int8_length]
  grind

/-- A batch of more than two gibibytes states a negative length: it is refused, damaged or not,
with another code. -/
theorem decodeRecordBatches_huge : ∃ (records : List Record) (q : Bytes),
    q.length=(encodeRecordBatch 0 records).length ∧ q≠encodeRecordBatch 0 records ∧
      q.take 21=(encodeRecordBatch 0 records).take 21 ∧
      q.drop (21+4)=(encodeRecordBatch 0 records).drop (21+4) ∧
      decodeRecordBatches q []=(.invalidRequest,[]) := by
  obtain ⟨value,hvalue⟩ : ∃ value : Bytes,value.length=2^31 := ⟨_,length_replicate (a := 0)⟩
  obtain ⟨hlow,hhigh⟩ := coveredBytes_value value
  have hbatch := encodeRecordBatch_eq 0 [{ value, valueNull := false }]
  obtain ⟨rest,hrest⟩ : ∃ rest,coveredBytes [{ value, valueNull := false }]=0::rest := ⟨_,rfl⟩
  rw [hrest] at hbatch hlow hhigh
  refine ⟨[{ value, valueNull := false }],
    batchBytes 0 (9+(0::rest).length) (crc32c 0 (0::rest)) (1::rest),?_⟩
  rw [show encodeRecordBatch 0 _=batchBytes 0 _ _ (0::rest) from hbatch]
  refine ⟨?_,fun h => ?_,?_,?_,?_⟩
  · rw [batchBytes_length,batchBytes_length,length_cons,length_cons]
  · have hbyte := congrArg (drop 21) h
    rw [batchBytes_drop,batchBytes_drop] at hbyte
    exact absurd (cons.inj hbyte).1 (by decide)
  · rw [batchBytes_take,batchBytes_take]
  · rw [← drop_drop,← drop_drop,batchBytes_drop,batchBytes_drop,drop_succ_cons,drop_succ_cons]
  · rw [length_cons] at hlow hhigh
    exact decodeRecordBatches_wrapped 0 (by rw [length_cons]; omega) (by rw [length_cons]; omega)
      (by rw [length_cons]; omega) []

end Mnemos.Kafka
