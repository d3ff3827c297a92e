import Mnemos.KafkaLog

/-!
# Fetching

The part of `Broker::fetch` for one partition: the offset is checked against
the high watermark, a page of records is read and cut to the byte budget, but
never to nothing, and what is left is sent as one batch.
-/

open List

namespace Mnemos.Kafka

/-! ## Calls on a log that stays as it is -/

variable {A B : Type} {s : Session} {store : Store} {linked linked' : Bool}

def Session.Steady (s : Session) : Prop := ∀ n,s.turns.get n=.answered

theorem Session.Steady.rest (h : s.Steady) : ∀ n,s.turns.tail.get n=.answered := fun n => h (n+1)

/-- What a run that ends with a value or an error leaves: the same keyspace, this value with this
state of the link, or an error of a link that fails. -/
def Ends (s : Session) (linked : Bool) (a : A) (out : Except Bytes A×Session) : Prop :=
  out.2.store=s.store ∧ ((out.1=.ok a ∧ out.2.linked=linked ∧ (s.Steady → out.2.Steady)) ∨
    ((∃ e,out.1=.error e) ∧ ¬s.Steady))

def Tells (x : Log A) (s : Session) (linked : Bool) (a : A) : Prop :=
  Ends s linked a ((ExceptT.run x).run Session.answer s)

theorem Ends.of_later {s' : Session} {a : A} {out : Except Bytes A×Session}
    (hstore : s'.store=s.store) (hsteady : s.Steady → s'.Steady) (h : Ends s' linked a out) :
    Ends s linked a out :=
  ⟨h.1.trans hstore,h.2.imp (fun h => ⟨h.1,h.2.1,h.2.2 ∘ hsteady⟩) fun h => ⟨h.1,h.2 ∘ hsteady⟩⟩

theorem Tells.bind {x : Log A} {a : A} {f : A → Log B} {b : B} (h : Tells x s linked a)
    (h' : ∀ s' : Session,s'.store=s.store → s'.linked=linked → Tells (f a) s' linked' b) :
    Tells (x >>= f) s linked' b := by
  unfold Tells at *
  rw [ExceptT.run_bind,Asking.run_bind]
  generalize (ExceptT.run x).run Session.answer s=out at h ⊢
  obtain ⟨v,s'⟩ := out
  obtain ⟨hstore,⟨hv,hlinked,hsteady⟩ | ⟨⟨e,hv⟩,hfails⟩⟩ := h
  · obtain rfl : v=.ok a := hv
    exact (h' s' hstore hlinked).of_later hstore hsteady
  · obtain rfl : v=.error e := hv
    exact ⟨hstore,.inr ⟨⟨e,rfl⟩,hfails⟩⟩

theorem Tells.pure (hlinked : s.linked=linked) (a : A) : Tells (Pure.pure a) s linked a :=
  ⟨rfl,.inl ⟨rfl,hlinked,id⟩⟩

section Commands

variable {argv : List Bytes} {reply : Reply}

theorem command_ends (hlinked : s.linked=true) (hexec : s.store.exec argv=(reply,s.store))
    {a : A} (next : Except Bytes Reply → Session → Except Bytes A×Session)
    (hok : ∀ s',next (.ok reply) s'=(.ok a,s'))
    (hrefused : ∀ text s',∃ e s'',next (.ok (.error text)) s'=(.error e,s'') ∧ s''.store=s'.store)
    (hlost : ∀ text s',∃ e s'',next (.error text) s'=(.error e,s'') ∧ s''.store=s'.store) :
    Ends s true a (next (s.command argv).1 (s.command argv).2) := by
  have hfails : s.turns.head≠.answered → ¬s.Steady := fun h hs => h (hs 0)
  have hended : ∀ {r s'},(∃ e s'',next r s'=(.error e,s'') ∧ s''.store=s'.store) →
      s'.store=s.store → s.turns.head≠.answered → Ends s true a (next r s') := by
    rintro r s' ⟨e,s'',hnext,hstore⟩ hsame hhead
    rw [hnext]
    exact ⟨hstore.trans hsame,.inr ⟨⟨e,rfl⟩,hfails hhead⟩⟩
  rw [Session.command,if_neg (by rw [hlinked]; decide),hexec]
  dsimp only
  cases hhead : s.turns.head with
  | answered =>
    dsimp only
    rw [hok]
    exact ⟨rfl,.inl ⟨rfl,hlinked,Session.Steady.rest⟩⟩
  | refused text => exact hended (hrefused text _) rfl fun h => by cases hhead.symm.trans h
  | lost text => exact hended (hlost text _) rfl fun h => by cases hhead.symm.trans h
  | unheard text => exact hended (hlost text _) rfl fun h => by cases hhead.symm.trans h

theorem call_tells (hlinked : s.linked=true) (hexec : s.store.exec argv=(reply,s.store))
    (hreply : reply.isError=false) :
    Tells (PartitionLog.call argv) s true (({} : ReplyObject).assign reply) := by
  refine command_ends hlinked hexec
    (fun r s' => (ExceptT.run (PartitionLog.outcome r) : Prog _).run Session.answer s')
    (fun s' => ?_) (fun text s' => ⟨_,s',rfl,rfl⟩) fun text s' => ⟨_,s',rfl,rfl⟩
  simp only [PartitionLog.outcome,hreply,Bool.false_eq_true,if_false]
  rfl

theorem select_tells (hlinked : s.linked=true) (db : ℤ) :
    Tells (PartitionLog.select db) s true () := by
  have hexec : s.store.exec [ascii "SELECT",intDecimal db]=
      (.simpleString (ascii "OK"),s.store) := by
    rw [Store.exec,if_neg (fun h => h.2 rfl)]
    rfl
  exact command_ends hlinked hexec (fun r s' => (ExceptT.run (tryCatch
    (discard (PartitionLog.outcome r)) fun e => do
      PartitionLog.disconnect
      throw e) : Prog _).run Session.answer s')
    (fun s' => rfl) (fun text s' => ⟨_,_,rfl,rfl⟩) fun text s' => ⟨_,_,rfl,rfl⟩

theorem connect_tells (host : Bytes) (port : ℤ) {f : Option Bytes → Log B} {b : B}
    (hthrow : ∀ e,f (some e)=throw e)
    (h : ∀ s' : Session,s'.store=s.store → s'.linked=true → Tells (f none) s' linked b) :
    Tells (PartitionLog.connect host port >>= f) s linked b := by
  change Ends s linked b ((ExceptT.run (f s.connect.1)).run Session.answer s.connect.2)
  have hfails : s.turns.head≠.answered → ¬s.Steady := fun h hs => h (hs 0)
  rw [Session.connect]
  dsimp only
  cases hhead : s.turns.head with
  | answered =>
    refine Ends.of_later ?_ ?_ (h { s with turns := s.turns.tail, linked := true } rfl rfl)
    · rfl
    · exact Session.Steady.rest
  | refused text | lost text | unheard text =>
    dsimp only
    rw [hthrow]
    exact ⟨rfl,.inr ⟨⟨text,rfl⟩,hfails fun h => by cases hhead.symm.trans h⟩⟩

theorem ensureConnected_tells (log : PartitionLog) : Tells log.ensureConnected s true () := by
  have hconnected : Tells PartitionLog.connected s s.linked s.linked := ⟨rfl,.inl ⟨rfl,rfl,id⟩⟩
  unfold PartitionLog.ensureConnected
  refine hconnected.bind fun s' hstore hsame => ?_
  split
  · rename_i hlinked
    exact .pure (hsame.trans hlinked) ()
  · refine connect_tells log.host log.port (fun e => rfl) fun s' hstore hlinked => ?_
    dsimp only
    split
    · exact .pure hlinked ()
    · exact select_tells hlinked log.db

end Commands

variable {topic : Bytes} {partition : ℤ} {rs : List Record}

theorem highWatermark_tells (log : PartitionLog)
    (hstored : s.store (logKey topic partition)=stored rs) :
    Tells (log.highWatermark topic partition) s true rs.length :=
  (ensureConnected_tells log).bind fun _ hstore hlinked =>
    (call_tells hlinked (exec_llen (hstore ▸ hstored)) rfl).bind fun _ _ hlinked' =>
      .pure hlinked' _

def lone : Store := Store.empty.put (logKey (ascii "t") 0) (.list [encodeStoredRecord tombstone])

theorem lone_stored : lone (logKey (ascii "t") 0)=stored [tombstone] := Store.put_self _ _ _

theorem lone_storable : ∀ r∈[tombstone],r.Storable := fun r hr => by
  rw [mem_singleton.mp hr]
  exact ⟨by decide,tombstone_sound.null,by decide +kernel⟩

/-- A client that is not connected yet, over a link that does not fail. -/
def quiet : Session := ⟨lone,false,Stream'.const .answered,Stream'.const 0⟩

end Mnemos.Kafka

/-! ## Fetching -/

namespace Mnemos.Kafka

def kMaxFetchRecords : ℤ := 4096

def estimateRecordSize (r : Record) : ℕ :=
  16+(r.key.length+r.value.length)+(r.headers.map fun h => h.key.length+h.value.length+4).sum

def estimatedSize (records : List Record) : ℕ := (records.map estimateRecordSize).sum

/-- The loop over the budget, with the number of records kept and their size so far. -/
def keptRecords (maxBytes : ℤ) : ℕ → ℕ → List Record → List Record
  | _,_,[] => []
  | kept,budget,r::records =>
    let budget := budget+estimateRecordSize r
    if 0 < kept ∧ 0 < maxBytes ∧ maxBytes < budget then []
    else r::keptRecords maxBytes (kept+1) budget records

structure FetchedPartition where
  index : ℤ
  error : ErrorCode := .none
  highWater : ℤ := 0
  records : Bytes := []

/-- The body of the loop of `fetch` over the partitions of a topic that has so many. -/
def fetchPartition (log : PartitionLog) (topic : Bytes) (partitions index fetchOffset
    partitionMaxBytes : ℤ) : Prog FetchedPartition :=
  if index < 0 ∨ partitions ≤ index then
    pure { index, error := .unknownTopicOrPartition }
  else do
    match ← (log.highWatermark topic index).run with
    | .error _ =>
      PartitionLog.disconnect
      pure { index, error := .kafkaStorageError }
    | .ok highWater =>
      if fetchOffset < 0 ∨ highWater < fetchOffset then
        pure { index, error := .offsetOutOfRange, highWater }
      else
        match ← (log.read topic index fetchOffset kMaxFetchRecords).run with
        | .error _ =>
          PartitionLog.disconnect
          pure { index, error := .kafkaStorageError, highWater }
        | .ok records =>
          let records := keptRecords partitionMaxBytes 0 0 records
          pure { index, highWater, records :=
            if records=[] then [] else encodeRecordBatch fetchOffset records }

variable {records rs : List Record} {s : Session} {topic : Bytes}
  {partition offset : ℤ}

theorem keptRecords_behind (maxBytes : ℤ) (kept budget : ℕ) (records : List Record) :
    ∃ k,k ≤ records.length ∧ keptRecords maxBytes (kept+1) budget records=records.take k ∧
      (1 ≤ k → 0 < maxBytes → budget+estimatedSize (records.take k) ≤ maxBytes) := by
  induction records generalizing kept budget with
  | nil => exact ⟨0,le_rfl,rfl,fun h => absurd h (by decide)⟩
  | cons r records ih =>
    rw [keptRecords]
    split
    · exact ⟨0,Nat.zero_le _,rfl,fun h => absurd h (by decide)⟩
    · rename_i hfits
      obtain ⟨k,hk,hkept,hbudget⟩ := ih (kept+1) (budget+estimateRecordSize r)
      refine ⟨k+1,by rw [length_cons]; omega,by rw [hkept,take_succ_cons],fun _ hmax => ?_⟩
      rw [take_succ_cons,estimatedSize,map_cons,sum_cons,← estimatedSize]
      rcases Nat.eq_zero_or_pos k with rfl | hpos
      · rw [take_zero,estimatedSize,map_nil,sum_nil]
        push Not at hfits
        have := hfits (by omega) hmax
        push_cast at this ⊢
        omega
      · have := hbudget hpos hmax
        push_cast at this ⊢
        omega

theorem keptRecords_spec (maxBytes : ℤ) (hsome : records≠[]) :
    ∃ k,1 ≤ k ∧ k ≤ records.length ∧ keptRecords maxBytes 0 0 records=records.take k ∧
      (0 < maxBytes → maxBytes < estimatedSize (records.take k) → k=1) := by
  cases records with
  | nil => exact absurd rfl hsome
  | cons r records =>
    obtain ⟨k,hk,hkept,hbudget⟩ := keptRecords_behind maxBytes 0 (estimateRecordSize r) records
    refine ⟨k+1,by omega,by rw [length_cons]; omega,?_,fun hmax hover => ?_⟩
    · rw [keptRecords,if_neg fun h => absurd h.1 (lt_irrefl 0),Nat.zero_add,Nat.zero_add] at *
      rw [hkept,take_succ_cons]
    · rw [take_succ_cons,estimatedSize,map_cons,sum_cons,← estimatedSize] at hover
      by_contra hk
      have := hbudget (by omega) hmax
      push_cast at hover
      omega

theorem read_tells (log : PartitionLog) (count : ℤ)
    (hstored : s.store (logKey topic partition)=stored rs) (hstorable : ∀ r∈rs,r.Storable)
    (hlow : 0 ≤ offset) (hone : 1 ≤ count) (hlast : offset+count ≤ 2^63) :
    Tells (log.read topic partition offset count) s true
      (numbered offset ((rs.drop offset.toNat).take count.toNat)) := by
  have hwrap : wrap64 (offset+count-1)=offset+count-1 := wrap64_of_fits ⟨by omega,by omega⟩
  unfold PartitionLog.read
  rw [if_neg (by omega)]
  refine (ensureConnected_tells log).bind fun s' hstore hlinked => ?_
  dsimp only
  rw [hwrap]
  have hexec := exec_lrange (hstore ▸ hstored) (m := offset) (n := offset+count-1)
    ⟨by omega,by omega⟩ ⟨by omega,by omega⟩
  rw [slice_plain hlow hone] at hexec
  refine (call_tells hlinked hexec rfl).bind fun s'' _ hlinked' => ?_
  have hdecoded := @decodeElements_stored ((rs.drop offset.toNat).take count.toNat)
    (fun r hr => hstorable r (mem_of_mem_drop (mem_of_mem_take hr))) offset
  rw [map_take,map_drop] at hdecoded
  rw [PartitionLog.decoded,ReplyObject.assign]
  dsimp only
  rw [hdecoded]
  exact .pure hlinked' _

theorem numbered_received (offset : ℤ) (rs : List Record) :
    (numbered offset rs).map Record.received=rs.map Record.received := by
  induction rs generalizing offset with
  | nil => rfl
  | cons r rs ih =>
    rw [numbered,map_cons,map_cons,ih]
    rfl

theorem numbered_sound (h : ∀ r∈rs,r.Sound) (offset : ℤ) : ∀ r∈numbered offset rs,r.Sound := by
  induction rs generalizing offset with
  | nil => exact nofun
  | cons r rs ih =>
    intro x hx
    rcases mem_cons.mp hx with rfl | hx
    · obtain ⟨htime,htime',hkey,hvalue,hheaders⟩ := h r mem_cons_self
      exact ⟨htime,htime',hkey,hvalue,hheaders⟩
    · exact ih (fun y hy => h y (mem_cons_of_mem r hy)) _ x hx

theorem decodeRecordBatches_one (hsound : ∀ r∈records,r.Sound)
    (hsize : (encodeRecordBatch offset records).length < 2^31) :
    decodeRecordBatches (encodeRecordBatch offset records) []=
      (.none,records.map Record.received) := by
  have hlen := encodeRecordBatch_length offset records
  obtain ⟨passes,hpasses⟩ : ∃ n,(encodeRecordBatch offset records).length=n+1 :=
    ⟨_,(Nat.succ_pred_eq_of_pos (by omega)).symm⟩
  have hread := decodeBatches_encoded offset [] passes [] hsound hsize
  rw [append_nil,nil_append] at hread
  rw [decodeRecordBatches,hpasses,hread]
  cases passes with
  | zero => rfl
  | succ passes => rw [decodeBatches,if_pos rfl]

structure Fetched (rs : List Record) (offset maxBytes : ℤ) (out : FetchedPartition) : Prop where
  highWater : out.highWater=rs.length
  /-- A batch at the offset that is read back to the records from there on, at least one. -/
  inside : 0 ≤ offset → offset < rs.length → out.error=.none ∧
    ∃ k : ℕ,1 ≤ k ∧ k ≤ 4096 ∧ offset+k ≤ rs.length ∧
      out.records=encodeRecordBatch offset (numbered offset ((rs.drop offset.toNat).take k)) ∧
      (out.records.length < 2^31 → decodeRecordBatches out.records []=
        (.none,((rs.drop offset.toNat).take k).map Record.received)) ∧
      (0 < maxBytes → maxBytes < estimatedSize ((rs.drop offset.toNat).take k) → k=1)
  atEnd : offset=rs.length → out.error=.none ∧ out.records=[]
  outside : offset < 0 ∨ rs.length < offset → out.error=.offsetOutOfRange

theorem estimatedSize_numbered (offset : ℤ) (rs : List Record) :
    estimatedSize (numbered offset rs)=estimatedSize rs := by
  induction rs generalizing offset with
  | nil => rfl
  | cons r rs ih =>
    unfold estimatedSize at *
    rw [numbered,map_cons,map_cons,sum_cons,sum_cons,ih]
    rfl

theorem fetched_page (hsound : ∀ r∈rs,r.Sound) (hlow : 0 ≤ offset) (hhigh : offset ≤ rs.length)
    (index maxBytes : ℤ) :
    let records := keptRecords maxBytes 0 0
      (numbered offset ((rs.drop offset.toNat).take kMaxFetchRecords.toNat))
    Fetched rs offset maxBytes { index, highWater := rs.length, records :=
      if records=[] then [] else encodeRecordBatch offset records } := by
  intro records
  refine ⟨rfl,fun _ hin => ⟨rfl,?_⟩,fun hend => ⟨rfl,?_⟩,fun hout => by omega⟩
  · have hlength : (numbered offset ((rs.drop offset.toNat).take kMaxFetchRecords.toNat)).length=
        min 4096 (rs.length-offset.toNat) := by
      rw [numbered_length,length_take,length_drop]
      rfl
    obtain ⟨k,hone,hk,hkept,hbudget⟩ := keptRecords_spec maxBytes
      (ne_nil_of_length_pos (by rw [hlength]; omega))
    have hpage : records=numbered offset ((rs.drop offset.toNat).take k) := by
      have hmax : k ≤ kMaxFetchRecords.toNat := by
        show k ≤ 4096
        omega
      rw [show records=_ from hkept,numbered_take,take_take,min_eq_left hmax]
    have hsome : records≠[] := by
      rw [show records=_ from hkept]
      exact ne_nil_of_length_pos (by rw [length_take]; omega)
    rw [← show records=_ from hkept,hpage,estimatedSize_numbered] at hbudget
    refine ⟨k,hone,by omega,by omega,?_,fun hsize => ?_,hbudget⟩
    · dsimp only
      rw [if_neg hsome,hpage]
    · dsimp only at hsize ⊢
      rw [if_neg hsome,hpage] at hsize ⊢
      rw [decodeRecordBatches_one (numbered_sound (fun r hr =>
        hsound r (mem_of_mem_drop (mem_of_mem_take hr))) offset) hsize,numbered_received]
  · have hnone : records=[] := by
      have hnil : rs.drop offset.toNat=[] := drop_eq_nil_iff.mpr (by omega)
      show keptRecords maxBytes 0 0 _=[]
      rw [hnil]
      rfl
    dsimp only
    rw [if_pos hnone]

/-- **Fetch**: whatever happens to the link, an answer for a partition that exists is an error of
the store or what the log holds from the offset on. -/
theorem fetchPartition_contents (log : PartitionLog) {partitions index : ℤ} (maxBytes : ℤ)
    (hindex : 0 ≤ index) (hindex' : index < partitions)
    (hstored : s.store (logKey topic index)=stored rs)
    (hsound : ∀ r∈rs,r.Sound) (hstorable : ∀ r∈rs,r.Storable) (hsize : rs.length+4096 ≤ 2^63)
    (hanswered : ((fetchPartition log topic partitions index offset maxBytes).run Session.answer
      s).1.error≠.kafkaStorageError) :
    Fetched rs offset maxBytes
      ((fetchPartition log topic partitions index offset maxBytes).run Session.answer s).1 := by
  revert hanswered
  unfold fetchPartition
  rw [if_neg (by omega),Asking.run_bind]
  obtain ⟨hstore,⟨hwater,-⟩ | ⟨⟨e,hwater⟩,-⟩⟩ := highWatermark_tells log hstored
  · rw [hwater]
    dsimp only
    by_cases hout : offset < 0 ∨ (rs.length : ℤ) < offset
    · rw [if_pos hout]
      exact fun _ => ⟨rfl,fun _ _ => by omega,fun _ => by omega,fun _ => rfl⟩
    · rw [if_neg hout,Asking.run_bind]
      push Not at hout
      obtain ⟨-,⟨hread,-⟩ | ⟨⟨e,hread⟩,-⟩⟩ := read_tells log kMaxFetchRecords
        (hstore ▸ hstored) hstorable hout.1 (by decide) (by unfold kMaxFetchRecords; omega)
      · rw [hread]
        exact fun _ => fetched_page hsound hout.1 hout.2 index maxBytes
      · rw [hread]
        exact fun h => absurd rfl h
  · rw [hwater]
    exact fun h => absurd rfl h

theorem fetchPartition_lone : Fetched [tombstone] 0 1
    ((fetchPartition {} (ascii "t") 1 0 0 1).run Session.answer quiet).1 :=
  fetchPartition_contents {} 1 (by decide) (by decide) lone_stored
    (fun r hr => by rw [mem_singleton.mp hr]; exact tombstone_sound) lone_storable (by decide)
    (by decide +kernel)

end Mnemos.Kafka

/-! ## The offset of a timestamp -/

namespace Mnemos.Kafka

variable {s : Session} {store : Store} {key : Bytes} {rs : List Record} {timestamp : ℤ}

theorem exec_lindex (h : store key=stored rs) {k : ℕ} (hk : k < rs.length)
    (hfits : FitsSigned 64 (k : ℤ)) :
    store.exec [ascii "LINDEX",key,intDecimal k]=(.bulk (encodeStoredRecord rs[k]),store) := by
  have hname : ascii "LINDEX"≠ascii "RPUSH" := by decide
  have hne : rs≠[] := by
    rintro rfl
    cases hk
  rw [Store.exec,if_neg (fun hn => hname hn.1),Store.execFixed,if_neg (by decide),
    if_neg (by decide),if_pos rfl,Store.lindex,stringToInt64_intDecimal hfits,h,stored,if_neg hne]
  have hnot : ¬(k : ℤ) < 0 := by omega
  simp [hnot,hk]

/-- The record just before the first place is older than the timestamp, and the one at the second
is not. -/
structure Crosses (rs : List Record) (timestamp : ℤ) (lo hi : ℕ) : Prop where
  before : ∀ r,0 < lo → rs[lo-1]?=some r → r.timestamp < timestamp
  at_ : ∀ r,rs[hi]?=some r → timestamp ≤ r.timestamp

theorem searchTimestamp_tells (hstored : store key=stored rs) (hstorable : ∀ r∈rs,r.Storable)
    (hsize : rs.length < 2^63) {steps lo hi : ℕ} (hlo : lo ≤ hi) (hhi : hi ≤ rs.length)
    (hsteps : hi-lo ≤ steps) (hcross : Crosses rs timestamp lo hi) :
    ∃ k : ℕ,(∀ s : Session,s.store=store → s.linked=true →
        Tells (PartitionLog.searchTimestamp key timestamp steps lo hi) s true (k : ℤ)) ∧
      k ≤ rs.length ∧ Crosses rs timestamp k k := by
  induction steps generalizing lo hi with
  | zero =>
    obtain rfl : lo=hi := by omega
    exact ⟨lo,fun s _ hlinked => .pure hlinked _,hhi,hcross⟩
  | succ steps ih =>
    by_cases hlt : lo < hi
    · generalize hmid : lo+(hi-lo)/2=mid
      have hin : mid < rs.length := by omega
      have hcast : (lo : ℤ)+((hi : ℤ)-lo)/2=(mid : ℤ) := by omega
      have hnext : (mid : ℤ)+1=((mid+1 : ℕ) : ℤ) := by omega
      have hread : rs[mid]?=some rs[mid] := getElem?_eq_getElem hin
      have hdecode := decodeStoredRecord_encodeStoredRecord (hstorable rs[mid] (getElem_mem hin))
      have hexec := exec_lindex hstored hin ⟨by omega,by omega⟩
      -- One half keeps the two facts, whichever way the comparison goes.
      obtain ⟨k,hrest,hk⟩ : ∃ k : ℕ,(∀ s : Session,s.store=store → s.linked=true →
          Tells (if rs[mid].received.timestamp < timestamp then
              PartitionLog.searchTimestamp key timestamp steps ((mid : ℤ)+1) hi
            else PartitionLog.searchTimestamp key timestamp steps lo mid) s true (k : ℤ)) ∧
          k ≤ rs.length ∧ Crosses rs timestamp k k := by
        by_cases hold : rs[mid].received.timestamp < timestamp
        · simp only [if_pos hold,hnext]
          refine ih (by omega : mid+1 ≤ hi) hhi (by omega) ⟨fun r _ hr => ?_,hcross.at_⟩
          rw [Nat.add_sub_cancel,hread] at hr
          exact Option.some.inj hr ▸ hold
        · simp only [if_neg hold]
          refine ih (by omega : lo ≤ mid) hin.le (by omega) ⟨hcross.before,fun r hr => ?_⟩
          rw [hread] at hr
          exact Option.some.inj hr ▸ not_lt.mp hold
      refine ⟨k,fun s hstore hlinked => ?_,hk⟩
      rw [PartitionLog.searchTimestamp,if_pos (by omega)]
      dsimp only
      rw [hcast]
      subst hstore
      refine (call_tells hlinked hexec rfl).bind fun s' hstore' hlinked' => ?_
      simp only [ReplyObject.assign,Reply.isNull,Bool.false_eq_true,if_false,hdecode]
      exact hrest s' hstore' hlinked'
    · obtain rfl : lo=hi := by omega
      refine ⟨lo,fun s _ hlinked => ?_,hhi,hcross⟩
      rw [PartitionLog.searchTimestamp,if_neg (lt_irrefl _)]
      exact .pure hlinked _

/-- What the offset found for a timestamp says: its record is not older and the one before it is,
or there is none and the last record is older. -/
def Located (rs : List Record) (timestamp offset : ℤ) : Prop :=
  (∃ k : ℕ,offset=k ∧ k < rs.length ∧ Crosses rs timestamp k k) ∨
    offset=-1 ∧ ∀ r,rs.getLast?=some r → r.timestamp < timestamp

/-- `offsetForTimestamp` returns a place where the timestamps pass the wanted one, in any order of
the timestamps; if they do not decrease, every record that is not older is there or behind. -/
theorem offsetForTimestamp_located (log : PartitionLog) {topic : Bytes} {partition : ℤ}
    (timestamp : ℤ) (hstored : s.store (logKey topic partition)=stored rs)
    (hstorable : ∀ r∈rs,r.Storable) (hsize : rs.length < 2^63) :
    ∃ offset,Tells (log.offsetForTimestamp topic partition timestamp) s true offset ∧
      Located rs timestamp offset ∧
      (rs.Pairwise (fun a b => a.timestamp ≤ b.timestamp) → ∀ (j : ℕ) r,rs[j]?=some r →
        timestamp ≤ r.timestamp → 0 ≤ offset ∧ offset ≤ j) := by
  obtain ⟨k,hsearch,hk,hcross⟩ := @searchTimestamp_tells s.store _ rs timestamp hstored hstorable
    hsize rs.length 0 rs.length (Nat.zero_le _) le_rfl (Nat.sub_zero _).le
    ⟨fun r h => absurd h (lt_irrefl 0),fun r hr => by simp at hr⟩
  refine ⟨if k < rs.length then k else -1,?_,?_,?_⟩
  · unfold PartitionLog.offsetForTimestamp
    refine (highWatermark_tells log hstored).bind fun s' hstore hlinked => ?_
    split
    · rename_i hempty
      rw [if_neg (by omega)]
      exact .pure hlinked _
    · refine (hsearch s' hstore hlinked).bind fun s'' _ hlinked' => ?_
      simp only [Nat.cast_lt]
      exact .pure hlinked' _
  · split
    · rename_i hin
      exact .inl ⟨k,rfl,hin,hcross⟩
    · rename_i hend
      obtain rfl : k=rs.length := by omega
      refine .inr ⟨rfl,fun r hr => ?_⟩
      rw [getLast?_eq_getElem?] at hr
      exact hcross.before r (length_pos_of_mem (mem_of_getElem? hr)) hr
  · intro hsorted j r hr hlate
    -- Every record before the place is at most as late as the one just before it.
    have hle : k ≤ j := by
      by_contra hlt
      obtain ⟨hj,rfl⟩ := List.getElem?_eq_some_iff.mp hr
      have hin : k-1 < rs.length := by omega
      have holder := hcross.before rs[k-1] (by omega) (getElem?_eq_getElem hin)
      rcases Nat.lt_or_eq_of_le (by omega : j ≤ k-1) with hj' | rfl
      · have := pairwise_iff_getElem.mp hsorted j (k-1) hj hin hj'
        omega
      · omega
    have hj := (List.getElem?_eq_some_iff.mp hr).1
    rw [if_pos (by omega)]
    exact ⟨by omega,by omega⟩

theorem offsetForTimestamp_lone : ∃ offset,
    Tells (({} : PartitionLog).offsetForTimestamp (ascii "t") 0 5) quiet true offset ∧
      Located [tombstone] 5 offset :=
  (offsetForTimestamp_located {} 5 lone_stored lone_storable (by decide)).imp
    fun _ h => ⟨h.1,h.2.1⟩

end Mnemos.Kafka
