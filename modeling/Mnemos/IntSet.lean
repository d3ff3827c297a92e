import Mathlib.Data.List.Pairwise
import Mathlib.Data.List.TakeWhile
import Mnemos.Bytes

/-!
# Sets of integers as sorted arrays

The members are kept strictly ascending and share one width of 2, 4 or 8 bytes
that only grows.
-/

namespace Mnemos

open List

inductive IntWidth where
  | int16
  | int32
  | int64
deriving DecidableEq,Repr

def IntWidth.bytes : IntWidth → ℕ
  | .int16 => 2
  | .int32 => 4
  | .int64 => 8

structure IntSet where
  values : List ℤ
  width : IntWidth
deriving DecidableEq,Repr

namespace IntSet

def empty : IntSet := ⟨[],.int16⟩

def widthFor (value : ℤ) : IntWidth :=
  if -32768 ≤ value ∧ value ≤ 32767 then .int16
  else if -2147483648 ≤ value ∧ value ≤ 2147483647 then .int32
  else .int64

def upgradeTo (width : IntWidth) (s : IntSet) : IntSet :=
  if s.width.bytes < width.bytes then { s with width := width } else s

/-- The members below a value, as `std::lower_bound` separates them. -/
def below (s : IntSet) (value : ℤ) : List ℤ := s.values.takeWhile (· < value)

def fromBound (s : IntSet) (value : ℤ) : List ℤ := s.values.dropWhile (· < value)

def contains (s : IntSet) (value : ℤ) : Bool := (s.fromBound value).head?==some value

def size (s : IntSet) : ℕ := s.values.length

def add (s : IntSet) (value : ℤ) : Bool×IntSet :=
  if (s.fromBound value).head?==some value then (false,s)
  else (true,{ upgradeTo (widthFor value) s with
    values := s.below value++value::s.fromBound value })

def remove (s : IntSet) (value : ℤ) : Bool×IntSet :=
  if (s.fromBound value).head?==some value then
    (true,{ s with values := s.below value++(s.fromBound value).tail })
  else (false,s)

def byteSize (s : IntSet) : ℕ := 8+s.values.length*s.width.bytes

def toBytes (s : IntSet) : Bytes :=
  leBytes 4 s.width.bytes++leBytes 4 s.values.length++
    s.values.flatMap fun v => leBytes s.width.bytes (toUnsigned 64 v)

def readSigned (width : IntWidth) (field : Bytes) : ℤ := toSigned (8*width.bytes) (leValue field)

def readValues (width : IntWidth) : ℕ → Bytes → List ℤ
  | 0,_ => []
  | count+1,bytes =>
    readSigned width (bytes.take width.bytes)::readValues width count (bytes.drop width.bytes)

def strictlyAscending : List ℤ → Bool
  | a::b::rest => a < b && strictlyAscending (b::rest)
  | _ => true

def widthOf : ℕ → Option IntWidth
  | 2 => some .int16
  | 4 => some .int32
  | 8 => some .int64
  | _ => none

def fromBytes (bytes : Bytes) : Option IntSet :=
  if bytes.length < 8 then none
  else
    match widthOf (leValue (bytes.take 4)) with
    | none => none
    | some width =>
      let count := leValue ((bytes.drop 4).take 4)
      if bytes.length≠8+count*width.bytes then none
      else
        let values := readValues width count (bytes.drop 8)
        if strictlyAscending values then some ⟨values,width⟩ else none

/-- The invariant: strictly ascending members that fit the width. -/
structure Ok (s : IntSet) : Prop where
  sorted : s.values.Pairwise (· < ·)
  fits : ∀ v∈s.values,FitsSigned (8*s.width.bytes) v

variable {s : IntSet} {width : IntWidth}

theorem Ok.fits64 (h : s.Ok) {v : ℤ} (hv : v∈s.values) : FitsSigned 64 v := by
  have hle : 8*s.width.bytes ≤ 64 := by cases s.width <;> decide
  exact (h.fits v hv).mono hle

theorem empty_ok : empty.Ok := ⟨.nil,nofun⟩

theorem Ok.bound (h : s.Ok) (value : ℤ) :
    (∀ v∈s.below value,v < value) ∧ ∀ v∈s.fromBound value,value ≤ v := by
  refine ⟨fun v hv => by simpa using mem_takeWhile_imp hv,fun v hv => ?_⟩
  have hsorted := h.sorted
  unfold fromBound at hv
  induction hvals : s.values generalizing s with
  | nil =>
    rw [hvals] at hv
    cases hv
  | cons a rest ih =>
    rw [hvals] at hv hsorted
    rw [pairwise_cons] at hsorted
    rw [dropWhile_cons] at hv
    split at hv
    · have hok : (⟨rest,s.width⟩ : IntSet).Ok :=
        ⟨hsorted.2,fun w hw => h.fits w (by rw [hvals]; exact mem_cons_of_mem a hw)⟩
      exact ih hok hv hsorted.2 rfl
    · rename_i ha
      rw [decide_eq_true_eq,not_lt] at ha
      rcases mem_cons.mp hv with h | h
      · exact h ▸ ha
      · exact le_trans ha (hsorted.1 v h).le

theorem below_append (s : IntSet) (value : ℤ) : s.below value++s.fromBound value=s.values :=
  takeWhile_append_dropWhile

theorem Ok.head_iff (h : s.Ok) (value : ℤ) :
    ((s.fromBound value).head?==some value)=true ↔ value∈s.values := by
  have hb := h.bound value
  rw [beq_iff_eq,← below_append s value,mem_append]
  constructor
  · intro hh
    exact .inr (mem_of_mem_head? hh)
  · rintro (hin | hin)
    · exact absurd (hb.1 value hin) (lt_irrefl value)
    · cases hrest : s.fromBound value with
      | nil =>
        rw [hrest] at hin
        cases hin
      | cons a rest =>
        rw [hrest] at hin
        have ha : value ≤ a := hb.2 a (by rw [hrest]; exact mem_cons_self)
        rcases mem_cons.mp hin with h' | h'
        · rw [h']
          rfl
        · have hsorted := h.sorted
          rw [← below_append s value,hrest,pairwise_append,pairwise_cons] at hsorted
          exact absurd (hsorted.2.1.1 value h') (not_lt.mpr ha)

theorem Ok.contains_iff (h : s.Ok) (value : ℤ) :
    s.contains value=true ↔ value∈s.values := h.head_iff value

theorem fits_upgrade (h : s.Ok) (w : IntWidth) :
    ∀ v∈s.values,FitsSigned (8*(upgradeTo w s).width.bytes) v := by
  intro v hv
  have hfit := h.fits v hv
  unfold upgradeTo
  split
  · rename_i hlt
    exact hfit.mono (by dsimp only; omega)
  · exact hfit

theorem fits_widthFor {value : ℤ} (h64 : FitsSigned 64 value) :
    FitsSigned (8*(upgradeTo (widthFor value) s).width.bytes) value := by
  have hown : FitsSigned (8*(widthFor value).bytes) value := by
    unfold widthFor
    split
    · show FitsSigned 16 value
      unfold FitsSigned
      omega
    split
    · show FitsSigned 32 value
      unfold FitsSigned
      omega
    · exact h64
  unfold upgradeTo
  split
  · exact hown
  · rename_i hle
    exact hown.mono (by omega)

theorem Ok.add (h : s.Ok) {value : ℤ} (h64 : FitsSigned 64 value) :
    (s.add value).2.Ok ∧ (∀ v,v∈(s.add value).2.values ↔ v=value ∨ v∈s.values) ∧
      ((s.add value).1=true ↔ value∉s.values) := by
  unfold IntSet.add
  by_cases hin : value∈s.values
  · rw [if_pos ((h.head_iff value).mpr hin)]
    refine ⟨h,fun v => ⟨.inr,?_⟩,by simp [hin]⟩
    rintro (rfl | hv)
    · exact hin
    · exact hv
  · rw [if_neg (fun hc => hin ((h.head_iff value).mp hc))]
    have hb := h.bound value
    have hsplit := below_append s value
    have hmem : ∀ v,v∈s.below value++value::s.fromBound value ↔ v=value ∨ v∈s.values := by
      intro v
      rw [← hsplit]
      simp only [mem_append,mem_cons]
      tauto
    refine ⟨⟨?_,fun v hv => ?_⟩,hmem,by simp [hin]⟩
    · have hsorted := h.sorted
      rw [← hsplit,pairwise_append] at hsorted
      refine pairwise_append.mpr ⟨hsorted.1,pairwise_cons.mpr ⟨fun v hv => ?_,
        hsorted.2.1⟩,fun a ha v hv => ?_⟩
      · refine lt_of_le_of_ne (hb.2 v hv) ?_
        rintro rfl
        exact hin (by rw [← hsplit]; exact mem_append_right _ hv)
      · rcases mem_cons.mp hv with h' | h'
        · rw [h']
          exact hb.1 a ha
        · exact hsorted.2.2 a ha v h'
    · rcases (hmem v).mp hv with rfl | hv'
      · exact fits_widthFor h64
      · exact fits_upgrade h _ v hv'

theorem Ok.remove (h : s.Ok) (value : ℤ) :
    (s.remove value).2.Ok ∧ (∀ v,v∈(s.remove value).2.values ↔ v≠value ∧ v∈s.values) ∧
      ((s.remove value).1=true ↔ value∈s.values) := by
  unfold IntSet.remove
  by_cases hin : value∈s.values
  · have hhead := (h.head_iff value).mpr hin
    rw [if_pos hhead]
    cases hrest : s.fromBound value with
    | nil =>
      rw [hrest] at hhead
      cases hhead
    | cons a rest =>
      have ha : a=value := by
        rw [hrest] at hhead
        simpa using hhead
      subst ha
      have hsplit : s.values=s.below a++a::rest := by rw [← hrest,below_append]
      have hsorted := h.sorted
      rw [hsplit,pairwise_append,pairwise_cons] at hsorted
      have hbelow := (h.bound a).1
      rw [tail_cons]
      have hmem : ∀ v,v∈s.below a++rest ↔ v≠a ∧ v∈s.values := by
        intro v
        rw [hsplit]
        simp only [mem_append,mem_cons]
        constructor
        · rintro (hv | hv)
          · exact ⟨(hbelow v hv).ne,.inl hv⟩
          · exact ⟨(hsorted.2.1.1 v hv).ne',.inr (.inr hv)⟩
        · rintro ⟨hne,hv | hv | hv⟩
          · exact .inl hv
          · exact absurd hv hne
          · exact .inr hv
      refine ⟨⟨?_,fun v hv => h.fits v ((hmem v).mp hv).2⟩,hmem,by simp [hin]⟩
      exact pairwise_append.mpr ⟨hsorted.1,hsorted.2.1.2,
        fun b hb v hv => hsorted.2.2 b hb v (mem_cons_of_mem a hv)⟩
  · rw [if_neg (fun hc => hin ((h.head_iff value).mp hc))]
    refine ⟨h,fun v => ⟨fun hv => ⟨?_,hv⟩,fun hv => hv.2⟩,by simp [hin]⟩
    rintro rfl
    exact hin hv

theorem readSigned_field {v : ℤ} (h : FitsSigned (8*width.bytes) v) :
    readSigned width (leBytes width.bytes (toUnsigned 64 v))=v := by
  have hle : 8*width.bytes ≤ 64 := by cases width <;> decide
  have hpos : 0 < 8*width.bytes := by cases width <;> decide
  rw [readSigned,leValue_leBytes,pow_bytes,toUnsigned_mod hle,toSigned_toUnsigned hpos h]

theorem readValues_fields (vs : List ℤ) (h : ∀ v∈vs,FitsSigned (8*width.bytes) v) :
    readValues width vs.length (vs.flatMap fun v => leBytes width.bytes (toUnsigned 64 v))=vs := by
  induction vs with
  | nil => rfl
  | cons v vs ih =>
    rw [length_cons,flatMap_cons,readValues,take_left' (leBytes_length _ _),
      drop_left' (leBytes_length _ _),readSigned_field (h v mem_cons_self),
      ih fun w hw => h w (mem_cons_of_mem v hw)]

theorem strictlyAscending_iff (vs : List ℤ) :
    strictlyAscending vs=true ↔ vs.Pairwise (· < ·) := by
  rw [← isChain_iff_pairwise]
  fun_induction strictlyAscending vs with
  | case1 a b rest ih => rw [Bool.and_eq_true,decide_eq_true_iff,ih,isChain_cons_cons]
  | case2 vs hshort =>
    cases vs with
    | nil => simp
    | cons a vs =>
      cases vs with
      | nil => simp
      | cons b vs => exact absurd rfl (hshort a b vs)

theorem fields_length (width : IntWidth) (vs : List ℤ) :
    (vs.flatMap fun v => leBytes width.bytes (toUnsigned 64 v)).length=vs.length*width.bytes := by
  induction vs with
  | nil => simp
  | cons v vs ih =>
    rw [flatMap_cons,length_append,leBytes_length,ih,length_cons,Nat.add_mul,
      Nat.one_mul,Nat.add_comm]

theorem toBytes_length (s : IntSet) : s.toBytes.length=s.byteSize := by
  rw [toBytes,length_append,length_append,leBytes_length,leBytes_length,fields_length]
  rfl

theorem Ok.fromBytes (h : s.Ok) (hcount : s.values.length < 2^32) :
    fromBytes s.toBytes=some s := by
  have hlen : s.toBytes.length=8+s.values.length*s.width.bytes := s.toBytes_length
  have hwidth : leValue (s.toBytes.take 4)=s.width.bytes := by
    rw [toBytes,append_assoc,take_left' (leBytes_length 4 _),leValue_leBytes_of_lt]
    cases s.width <;> decide
  have hstored : leValue ((s.toBytes.drop 4).take 4)=s.values.length := by
    rw [toBytes,append_assoc,drop_left' (leBytes_length 4 _),
      take_left' (leBytes_length 4 _),leValue_leBytes_of_lt (by omega)]
  have hrest : s.toBytes.drop 8=s.values.flatMap fun v => leBytes s.width.bytes (toUnsigned 64 v) :=
    drop_left' (by rw [length_append,leBytes_length,leBytes_length])
  have hof : widthOf s.width.bytes=some s.width := by cases s.width <;> rfl
  rw [IntSet.fromBytes,if_neg (by omega),hwidth,hof]
  dsimp only
  rw [hstored,if_neg (not_not_intro hlen),hrest,readValues_fields s.values h.fits,
    if_pos ((strictlyAscending_iff _).mpr h.sorted)]

theorem readValues_fits {count : ℕ} {bytes : Bytes} :
    ∀ v∈readValues width count bytes,FitsSigned (8*width.bytes) v := by
  induction count generalizing bytes with
  | zero =>
    intro v hv
    cases hv
  | succ count ih =>
    intro v hv
    rcases mem_cons.mp hv with h | h
    · have hlt := leValue_lt (bytes.take width.bytes)
      have hle : (256 : ℕ)^(bytes.take width.bytes).length ≤ 256^width.bytes :=
        Nat.pow_le_pow_right (by decide) (by rw [length_take]; omega)
      rw [pow_bytes width.bytes] at hle
      rw [h,readSigned]
      exact toSigned_fits (by cases width <;> decide) (lt_of_lt_of_le hlt hle)
    · exact ih v h

theorem ok_of_fromBytes {bytes : Bytes} (h : IntSet.fromBytes bytes=some s) :
    s.Ok := by
  rw [IntSet.fromBytes] at h
  split at h
  · cases h
  cases hw : widthOf (leValue (bytes.take 4)) with
  | none =>
    rw [hw] at h
    cases h
  | some width =>
    rw [hw] at h
    dsimp only at h
    split at h
    · cases h
    split at h
    · rename_i hasc
      rw [← Option.some.inj h]
      exact ⟨(strictlyAscending_iff _).mp hasc,readValues_fits⟩
    · cases h

end IntSet

end Mnemos

/-! ## Sequences of operations on sets of integers -/

namespace Mnemos.IntSet

open List

inductive Operation where
  | add (value : { v : ℤ // FitsSigned 64 v })
  | remove (value : { v : ℤ // FitsSigned 64 v })
  | clear

def Operation.step (s : IntSet) : Operation → IntSet
  | .add value => (s.add value).2
  | .remove value => (s.remove value).2
  | .clear => empty

def run (s : IntSet) (ops : List Operation) : IntSet := ops.foldl Operation.step s

inductive Origin : IntSet → Prop where
  | empty : Origin empty
  | loaded {bytes : Bytes} {s : IntSet} (h : fromBytes bytes=some s) : Origin s

variable {s : IntSet}

theorem Origin.ok (h : Origin s) : s.Ok := by
  cases h with
  | empty => exact empty_ok
  | loaded h => exact ok_of_fromBytes h

theorem Ok.step (h : s.Ok) (op : Operation) : (op.step s).Ok := by
  cases op with
  | add value => exact (h.add value.2).1
  | remove value => exact (h.remove value).1
  | clear => exact empty_ok

theorem Ok.run (h : s.Ok) (ops : List Operation) : (s.run ops).Ok := by
  induction ops generalizing s with
  | nil => exact h
  | cons op ops ih => exact ih (h.step op)

theorem width_step (s : IntSet) {op : Operation} (hop : op≠.clear) :
    s.width.bytes ≤ (op.step s).width.bytes := by
  cases op with
  | clear => exact absurd rfl hop
  | add value =>
    rw [Operation.step,IntSet.add]
    split
    · exact le_rfl
    · dsimp only [upgradeTo]
      split
      · rename_i hwider
        exact hwider.le
      · exact le_rfl
  | remove value =>
    rw [Operation.step,IntSet.remove]
    split <;> exact le_rfl

theorem width_run (s : IntSet) {ops : List Operation} (hops : .clear∉ops) :
    s.width.bytes ≤ (s.run ops).width.bytes := by
  induction ops generalizing s with
  | nil => exact le_rfl
  | cons op ops ih =>
    rw [mem_cons,not_or] at hops
    exact (width_step s fun h => hops.1 h.symm).trans (ih _ hops.2)

theorem Ok.fromBytes_toBytes_iff (h : s.Ok) :
    IntSet.fromBytes s.toBytes=some s ↔ s.values.length < 2^32 := by
  refine ⟨fun hread => ?_,h.fromBytes⟩
  have hcount : leValue ((s.toBytes.drop 4).take 4)=s.values.length%256^4 := by
    rw [toBytes,append_assoc,drop_left' (leBytes_length 4 _),
      take_left' (leBytes_length 4 _),leValue_leBytes]
  have hlength := s.toBytes_length
  rw [byteSize] at hlength
  rw [IntSet.fromBytes,if_neg (by omega)] at hread
  split at hread
  · cases hread
  · rename_i width _
    dsimp only at hread
    split at hread
    · cases hread
    · rename_i hstated
      split at hread
      · have hwidth : s.width=width := (congrArg IntSet.width (Option.some.inj hread)).symm
        -- the length of the bytes counts all members, the field only those modulo its size
        rw [not_not,hlength,hcount,hwidth] at hstated
        have hsame := Nat.eq_of_mul_eq_mul_right (by cases width <;> decide)
          (Nat.add_left_cancel hstated)
        rw [hsame]
        exact Nat.mod_lt _ (by decide)
      · cases hread

theorem toUnsigned_toSigned {bits n : ℕ} (h : n < 2^bits) : toUnsigned bits (toSigned bits n)=n := by
  have hcast : (n : ℤ) < 2^bits := by exact_mod_cast h
  unfold toUnsigned toSigned
  split
  · rw [Int.emod_eq_of_lt (Int.natCast_nonneg n) hcast,Int.toNat_natCast]
  · rw [Int.sub_emod_right,Int.emod_eq_of_lt (Int.natCast_nonneg n) hcast,Int.toNat_natCast]

theorem field_readSigned {width : IntWidth} {field : Bytes} (h : field.length=width.bytes) :
    leBytes width.bytes (toUnsigned 64 (readSigned width field))=field := by
  have hle : 8*width.bytes ≤ 64 := by cases width <;> decide
  have hlt := leValue_lt field
  rw [h,pow_bytes] at hlt
  have hvalue : leValue (leBytes width.bytes (toUnsigned 64 (readSigned width field)))=
      leValue field := by
    rw [leValue_leBytes,pow_bytes,toUnsigned_mod hle,readSigned,toUnsigned_toSigned hlt]
  have hback := leBytes_leValue (leBytes width.bytes (toUnsigned 64 (readSigned width field)))
  rw [leBytes_length,hvalue] at hback
  rw [←hback,←h]
  exact leBytes_leValue field

theorem fields_readValues (width : IntWidth) (count : ℕ) {bytes : Bytes}
    (h : bytes.length=count*width.bytes) :
    (readValues width count bytes).flatMap (fun v => leBytes width.bytes (toUnsigned 64 v))=
      bytes := by
  induction count generalizing bytes with
  | zero =>
    rw [Nat.zero_mul,length_eq_zero_iff] at h
    rw [h]
    rfl
  | succ count ih =>
    rw [Nat.add_mul,Nat.one_mul] at h
    rw [readValues,flatMap_cons,ih (by rw [length_drop]; omega),
      field_readSigned (by rw [length_take]; omega),take_append_drop]

theorem readValues_length (width : IntWidth) (count : ℕ) (bytes : Bytes) :
    (readValues width count bytes).length=count := by
  induction count generalizing bytes with
  | zero => rfl
  | succ count ih => rw [readValues,length_cons,ih]

theorem widthOf_eq {n : ℕ} {width : IntWidth} (h : widthOf n=some width) : n=width.bytes := by
  unfold widthOf at h
  split at h <;> first | cases h; rfl | cases h

theorem toBytes_of_fromBytes {bytes : Bytes} (h : IntSet.fromBytes bytes=some s) :
    s.toBytes=bytes := by
  rw [IntSet.fromBytes] at h
  split at h
  · cases h
  rename_i hlong
  split at h
  · cases h
  · rename_i width hwidth
    dsimp only at h
    split at h
    · cases h
    · rename_i hlength
      rw [not_not] at hlength
      split at h
      · cases h
        have hfour : (bytes.take 4).length=4 := by rw [length_take]; omega
        have hnext : ((bytes.drop 4).take 4).length=4 := by
          rw [length_take,length_drop]
          omega
        have hfirst : leBytes 4 width.bytes=bytes.take 4 := by
          rw [←widthOf_eq hwidth]
          nth_rewrite 1 [←hfour]
          exact leBytes_leValue _
        have hsecond : leBytes 4 (leValue ((bytes.drop 4).take 4))=(bytes.drop 4).take 4 := by
          nth_rewrite 1 [←hnext]
          exact leBytes_leValue _
        have hrest : (bytes.drop 8).length=leValue ((bytes.drop 4).take 4)*width.bytes := by
          rw [length_drop]
          omega
        rw [toBytes]
        dsimp only
        rw [readValues_length,fields_readValues width _ hrest,hfirst,hsecond,append_assoc,
          ←drop_drop (i := 4) (j := 4),take_append_drop,take_append_drop]
      · cases h

/-- **Sets of integers**: after every sequence of operations from the empty set or a loaded one the
members ascend and fit the width, which has grown since any earlier point after the last `clear`;
the set is read back from its bytes exactly when it has fewer than 2^32 members. Accepted bytes are
written again as they were. -/
theorem intset_runs {s : IntSet} (h : Origin s) (ops : List Operation) :
    (s.run ops).values.Pairwise (· < ·) ∧
    (∀ v∈(s.run ops).values,FitsSigned (8*(s.run ops).width.bytes) v) ∧
    (∀ before after,ops=before++after → .clear∉after →
      (s.run before).width.bytes ≤ (s.run ops).width.bytes) ∧
    (fromBytes (s.run ops).toBytes=some (s.run ops) ↔ (s.run ops).values.length < 2^32) ∧
    ∀ bytes t,fromBytes bytes=some t → t.toBytes=bytes := by
  have hok := h.ok.run ops
  refine ⟨hok.sorted,hok.fits,fun before after hops hclear => ?_,hok.fromBytes_toBytes_iff,
    fun bytes t ht => toBytes_of_fromBytes ht⟩
  have happend : s.run (before++after)=(s.run before).run after := foldl_append
  rw [hops,happend]
  exact width_run _ hclear

theorem intset_runs_loaded :
    fromBytes [4,0,0,0,2,0,0,0,1,0,0,0,0,0,1,0]=some ⟨[1,65536],.int32⟩ ∧
    fromBytes (run ⟨[1,65536],.int32⟩ [.remove ⟨65536,by decide⟩]).toBytes=
      some (run ⟨[1,65536],.int32⟩ [.remove ⟨65536,by decide⟩]) := by
  have hread : fromBytes [4,0,0,0,2,0,0,0,1,0,0,0,0,0,1,0]=some ⟨[1,65536],.int32⟩ := by
    decide +kernel
  exact ⟨hread,(intset_runs (.loaded hread) _).2.2.2.1.mpr (by decide +kernel)⟩

theorem mem_run_add (vs : List { v : ℤ // FitsSigned 64 v }) (h : s.Ok) (v : ℤ) :
    v∈(s.run (vs.map .add)).values ↔ v∈vs.map Subtype.val ∨ v∈s.values := by
  induction vs generalizing s with
  | nil => simp [run]
  | cons a vs ih =>
    have hadd := h.add a.2
    refine (ih hadd.1).trans ?_
    rw [hadd.2.1,map_cons,mem_cons]
    tauto

/-- The first `n` natural numbers as arguments, as long as they are `int64`. -/
def firstInts (n : ℕ) (h : n ≤ 2^63) : List { v : ℤ // FitsSigned 64 v } :=
  (List.finRange n).map fun i => ⟨i.val,by have := i.isLt; unfold FitsSigned; omega⟩

theorem length_run_firstInts (n : ℕ) (h : n ≤ 2^63) :
    (empty.run ((firstInts n h).map .add)).values.length=n := by
  have hok := empty_ok.run ((firstInts n h).map .add)
  have hperm : (empty.run ((firstInts n h).map .add)).values.Perm
      ((firstInts n h).map Subtype.val) := by
    refine (perm_ext_iff_of_nodup (hok.sorted.imp fun hlt => hlt.ne) ?_).mpr fun v => ?_
    · rw [firstInts,map_map]
      refine (nodup_finRange n).map fun i j hij => ?_
      simpa [Fin.ext_iff] using hij
    · rw [mem_run_add _ empty_ok]
      simp [empty]
  rw [hperm.length_eq,length_map,firstInts,length_map,length_finRange]

/-- The count of 2^32 members does not fit its field. -/
theorem intset_count_lost :
    fromBytes (empty.run ((firstInts (2^32) (by decide)).map .add)).toBytes≠
      some (empty.run ((firstInts (2^32) (by decide)).map .add)) := by
  rw [Ne,(empty_ok.run _).fromBytes_toBytes_iff,length_run_firstInts]
  exact lt_irrefl _

end Mnemos.IntSet
