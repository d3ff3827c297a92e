import Mathlib.Data.Finmap
import Mnemos.Dict

/-!
# The reverse-binary SCAN cursor

One `scan` call emits a bucket of the table, or during a rehash a bucket of the
smaller table with every bucket of the larger one that maps onto it.
-/

namespace Mnemos.Dict

open BitReversal

open List

variable {T : Type}

def emitBucket (t : Table T) (idx : UInt64) : List (Entry T) :=
  if t.size ≤ idx.toNat then [] else t.bucket idx.toNat

def advanceCursor (m cursor : UInt64) : UInt64 := reverseBits (reverseBits (cursor ||| ~~~m)+1)

/-- The do-while loop over the larger table. A cursor rises in reversed order on
every pass, so `2^64` passes are never exhausted. -/
def scanLarge (large : Table T) (ms : UInt64) : ℕ → UInt64 → List (Entry T)×UInt64
  | 0,cursor => ([],cursor)
  | fuel+1,cursor =>
    let emitted := emitBucket large (cursor &&& large.mask)
    let cursor := advanceCursor large.mask cursor
    if cursor &&& (ms ^^^ large.mask)=0 then (emitted,cursor)
    else (emitted++(scanLarge large ms fuel cursor).1,(scanLarge large ms fuel cursor).2)

/-- The emitted entries and the next cursor. -/
def DictState.scan (d : DictState T) (cursor : UInt64) : List (Entry T)×UInt64 :=
  if d.empty then ([],0)
  else if d.isRehashing then
    let small := if d.table0.size ≤ d.table1.size then d.table0 else d.table1
    let large := if d.table0.size ≤ d.table1.size then d.table1 else d.table0
    let rest := scanLarge large small.mask (2^64) cursor
    (emitBucket small (cursor &&& small.mask)++rest.1,rest.2)
  else (emitBucket d.table0 (cursor &&& d.table0.mask),advanceCursor d.table0.mask cursor)

/-- Bit position that an exchange of groups of `n` bits reads. -/
def flipIndex (n i : ℕ) : ℕ := if i/n%2=0 then i+n else i-n

theorem swapGroups_bit {n : ℕ} {s m : UInt64} (hn : 0 < n) (hs : s.toBitVec%64=BitVec.ofNat 64 n)
    (hn64 : n < 64) (hm : ∀ i < 64, m.toBitVec.getLsbD i=decide (i/n%2=0)) (v : UInt64) {i : ℕ}
    (hi : i < 64) : (swapGroups s m v).toBitVec.getLsbD i=v.toBitVec.getLsbD (flipIndex n i) := by
  have hmod : n%2^64=n := Nat.mod_eq_of_lt (by omega)
  simp only [swapGroups,UInt64.toBitVec_or,UInt64.toBitVec_and,UInt64.toBitVec_shiftRight,
    UInt64.toBitVec_shiftLeft,hs,BitVec.getLsbD_or,BitVec.getLsbD_and,BitVec.shiftLeft_eq',
    BitVec.ushiftRight_eq',BitVec.toNat_ofNat,hmod,BitVec.getLsbD_ushiftRight,
    BitVec.getLsbD_shiftLeft,hm i hi,flipIndex]
  by_cases heven : i/n%2=0
  · have hprev : ¬ i < n → m.toBitVec.getLsbD (i-n)=false := by
      intro hge
      rw [hm (i-n) (by omega)]
      have hdiv := Nat.div_eq_sub_div hn (Nat.le_of_not_lt hge)
      exact decide_eq_false (by omega)
    by_cases hlt : i < n
    · simp [heven,hlt,Nat.add_comm]
    · simp [heven,hlt,hprev hlt,Nat.add_comm]
  · have hge : ¬ i < n := by
      intro hlt
      rw [Nat.div_eq_of_lt hlt] at heven
      exact heven rfl
    have hprev : m.toBitVec.getLsbD (i-n)=true := by
      rw [hm (i-n) (by omega)]
      have hdiv := Nat.div_eq_sub_div hn (Nat.le_of_not_lt hge)
      exact decide_eq_true (by omega)
    simp [heven,hge,hi,hprev]

theorem swapHalves_bit (v : UInt64) {i : ℕ} (hi : i < 64) :
    ((v >>> 32) ||| (v <<< 32)).toBitVec.getLsbD i=v.toBitVec.getLsbD (flipIndex 32 i) := by
  have hs : (32 : UInt64).toBitVec%64=32#64 := by decide
  simp only [UInt64.toBitVec_or,UInt64.toBitVec_shiftRight,UInt64.toBitVec_shiftLeft,hs,
    BitVec.getLsbD_or,BitVec.shiftLeft_eq',BitVec.ushiftRight_eq',BitVec.toNat_ofNat,
    BitVec.getLsbD_ushiftRight,BitVec.getLsbD_shiftLeft,flipIndex]
  by_cases h : i < 32
  · simp [h,Nat.div_eq_of_lt h,Nat.add_comm]
  · have hhalf : i/32=1 := by omega
    have hhigh : v.toBitVec.getLsbD (32+i)=false := BitVec.getLsbD_of_ge _ _ (by omega)
    simp [h,hi,hhalf,hhigh]

theorem reverseBits_toBitVec (v : UInt64) : (reverseBits v).toBitVec=v.toBitVec.reverse := by
  apply BitVec.eq_of_getLsbD_eq
  intro i hi
  have h32 : flipIndex 32 i < 64 := (by decide : ∀ j < 64, flipIndex 32 j < 64) i hi
  have h16 := (by decide : ∀ j < 64, flipIndex 16 j < 64) _ h32
  have h8 := (by decide : ∀ j < 64, flipIndex 8 j < 64) _ h16
  have h4 := (by decide : ∀ j < 64, flipIndex 4 j < 64) _ h8
  have h2 := (by decide : ∀ j < 64, flipIndex 2 j < 64) _ h4
  have hall : flipIndex 1 (flipIndex 2 (flipIndex 4 (flipIndex 8 (flipIndex 16
      (flipIndex 32 i)))))=63-i :=
    (by decide : ∀ j < 64, flipIndex 1 (flipIndex 2 (flipIndex 4 (flipIndex 8 (flipIndex 16
      (flipIndex 32 j)))))=63-j) i hi
  rw [reverseBits,swapHalves_bit _ hi,
    swapGroups_bit (n := 16) (by decide) (by decide) (by decide) (by decide) _ h32,
    swapGroups_bit (n := 8) (by decide) (by decide) (by decide) (by decide) _ h16,
    swapGroups_bit (n := 4) (by decide) (by decide) (by decide) (by decide) _ h8,
    swapGroups_bit (n := 2) (by decide) (by decide) (by decide) (by decide) _ h4,
    swapGroups_bit (n := 1) (by decide) (by decide) (by decide) (by decide) _ h2,hall,
    BitVec.getLsbD_reverse,BitVec.getMsbD_eq_getLsbD]
  simp [hi]

theorem advanceCursor_toBitVec (m cursor : UInt64) :
    (advanceCursor m cursor).toBitVec=next m.toBitVec cursor.toBitVec := by
  rw [advanceCursor,reverseBits_toBitVec,UInt64.toBitVec_add,reverseBits_toBitVec,
    UInt64.toBitVec_or,UInt64.toBitVec_not]
  rfl

def keyRank (key : Bytes) : ℕ := rank (hash key).toBitVec

def within (low high : ℕ) (es : List (Entry T)) : List (Entry T) :=
  es.filter fun e => decide (low ≤ keyRank e.1 ∧ keyRank e.1 < high)

theorem mem_within {low high : ℕ} {es : List (Entry T)} {e : Entry T} :
    e∈within low high es ↔ e∈es ∧ low ≤ keyRank e.1 ∧ keyRank e.1 < high := by
  rw [within,mem_filter,decide_eq_true_eq]

theorem within_append {low mid high : ℕ} (h1 : low ≤ mid) (h2 : mid ≤ high) (es : List (Entry T)) :
    within low mid es++within mid high es ~ within low high es := by
  have hsplit := filter_append_perm (fun e : Entry T => decide (keyRank e.1 < mid))
    (within low high es)
  rw [within,filter_filter,filter_filter] at hsplit
  refine .trans (.of_eq ?_) hsplit
  congr 1
  · refine filter_congr fun e _ => ?_
    rw [Bool.eq_iff_iff,Bool.and_eq_true]
    simp only [decide_eq_true_eq]
    omega
  · refine filter_congr fun e _ => ?_
    rw [Bool.eq_iff_iff,Bool.and_eq_true,Bool.not_eq_true']
    simp only [decide_eq_true_eq,decide_eq_false_iff_not]
    omega

theorem Table.Ok.bucket_eq {t : Table T} (ht : t.Ok) (i : ℕ) :
    t.bucket i=t.entries.filter fun e => decide (t.slot (hash e.1)=i) := by
  have hgen : ∀ (bs : List (List (Entry T))) (n : ℕ),
      (∀ j,∀ e∈bs.getD j [],t.slot (hash e.1)=n+j) → n ≤ i →
      bs.getD (i-n) []=bs.flatten.filter fun e => decide (t.slot (hash e.1)=i) := by
    intro bs
    induction bs with
    | nil => simp
    | cons b bs ih =>
      intro n hplaced hn
      have hb : ∀ e∈b,t.slot (hash e.1)=n := hplaced 0
      have hrest : ∀ j,∀ e∈bs.getD j [],t.slot (hash e.1)=n+1+j := fun j e he => by
        have hslot := hplaced (j+1) e he
        omega
      rw [flatten_cons,filter_append]
      by_cases hi : i=n
      · have hnone : bs.flatten.filter (fun e => decide (t.slot (hash e.1)=i))=[] := by
          rw [filter_eq_nil_iff]
          intro e he
          obtain ⟨c,hc,hec⟩ := mem_flatten.mp he
          obtain ⟨j,hj,rfl⟩ := getElem_of_mem hc
          have hslot := hrest j e (by rwa [getD_eq_getElem _ _ hj])
          rw [decide_eq_true_eq]
          omega
        rw [hnone,append_nil,hi,Nat.sub_self,getD_cons_zero,eq_comm,filter_eq_self]
        exact fun e he => decide_eq_true (hb e he)
      · have hnone : b.filter (fun e => decide (t.slot (hash e.1)=i))=[] := by
          rw [filter_eq_nil_iff]
          intro e he
          rw [decide_eq_true_eq,hb e he]
          exact fun h => hi h.symm
        rw [hnone,nil_append,←ih (n+1) hrest (by omega),show i-n=i-(n+1)+1 by omega,
          getD_cons_succ]
  exact hgen t.buckets 0 (fun j e he => (ht.placed j e he).trans (Nat.zero_add j).symm)
    (Nat.zero_le i)

theorem same_block {r c b : ℕ} (hb : 0 < b) : r/b=c/b ↔ c/b*b ≤ r ∧ r < (c/b+1)*b := by
  rw [←Nat.le_div_iff_mul_le hb,←Nat.div_lt_iff_lt_mul hb]
  omega

theorem emitBucket_eq {t : Table T} (ht : t.Ok) {k : ℕ} (hk : t.size=2^k) (cursor : UInt64) :
    emitBucket t (cursor &&& t.mask)=
      within (rank cursor.toBitVec/2^(64-min k 64)*2^(64-min k 64))
        ((rank cursor.toBitVec/2^(64-min k 64)+1)*2^(64-min k 64)) t.entries := by
  have hlt : (cursor &&& t.mask).toNat < t.size := t.slot_lt hk cursor
  rw [emitBucket,if_neg (Nat.not_le.mpr hlt),ht.bucket_eq,within]
  refine filter_congr fun e _ => ?_
  rw [decide_eq_decide,←same_block (Nat.two_pow_pos _),keyRank,
    ←and_mask_eq_iff (min_le_right k 64),←t.mask_toBitVec hk,←UInt64.toBitVec_and,
    ←UInt64.toBitVec_and,UInt64.toBitVec_inj]
  exact UInt64.toNat_inj

theorem block_end_le {c l s : ℕ} (hs : 0 < s) (hls : l∣s) : (c/l+1)*l ≤ (c/s+1)*s := by
  obtain ⟨q,rfl⟩ := hls
  have hl : 0 < l := Nat.pos_of_mul_pos_right hs
  have hq : c/l < (c/(l*q)+1)*q := by
    rw [Nat.div_lt_iff_lt_mul hl,Nat.mul_assoc,Nat.mul_comm q l]
    exact Nat.lt_mul_of_div_lt (Nat.lt_succ_self _) hs
  calc (c/l+1)*l ≤ (c/(l*q)+1)*q*l := Nat.mul_le_mul_right l hq
    _ = (c/(l*q)+1)*(l*q) := by ring

theorem advanceCursor_block {m : UInt64} {l : ℕ} (hl : l ≤ 64)
    (hm : m.toBitVec=lowMask 64 l) (cursor : UInt64) :
    2^(64-l)∣rank (advanceCursor m cursor).toBitVec := by
  rw [advanceCursor_toBitVec,hm,rank_next hl]
  exact (Nat.dvd_mod_iff (Nat.pow_dvd_pow 2 (Nat.sub_le 64 l))).mpr (Nat.dvd_mul_left _ _)

/-- The loop over the larger table ends at the smaller table's block end and
emits what it holds from its own block's start up to there. -/
theorem scanLarge_emits {large : Table T} (ht : large.Ok) {k : ℕ} (hk : large.size=2^k)
    {ms : UInt64} {s : ℕ} (hs : s ≤ min k 64) (hms : ms.toBitVec=lowMask 64 s) (base : ℕ)
    (hbase : (base+1)*2^(64-s) ≤ 2^64) : ∀ (fuel : ℕ) (cursor : UInt64),
    2^64 ≤ fuel+rank cursor.toBitVec → rank cursor.toBitVec/2^(64-s)=base →
      reached (scanLarge large ms fuel cursor).2.toBitVec=(base+1)*2^(64-s) ∧
      (scanLarge large ms fuel cursor).1 ~
        within (rank cursor.toBitVec/2^(64-min k 64)*2^(64-min k 64)) ((base+1)*2^(64-s))
          large.entries := by
  have hl : min k 64 ≤ 64 := min_le_right k 64
  have hmask := large.mask_toBitVec hk
  have hS : 0 < 2^(64-s) := Nat.two_pow_pos _
  have hdvd : 2^(64-min k 64)∣2^(64-s) := Nat.pow_dvd_pow 2 (by omega)
  intro fuel
  induction fuel with
  | zero =>
    intro cursor hfuel _
    have hlt := rank_lt cursor.toBitVec
    omega
  | succ fuel ih =>
    intro cursor hfuel hblock
    have hreach : reached (advanceCursor large.mask cursor).toBitVec=
        (rank cursor.toBitVec/2^(64-min k 64)+1)*2^(64-min k 64) := by
      rw [advanceCursor_toBitVec,hmask,reached_next hl]
    have hstart := advanceCursor_block hl hmask cursor
    have htest := and_xor_mask_eq_zero_iff hs hl hstart
    have hend := block_end_le (c := rank cursor.toBitVec) hS hdvd
    rw [hblock] at hend
    have hgt : rank cursor.toBitVec<
        (rank cursor.toBitVec/2^(64-min k 64)+1)*2^(64-min k 64) :=
      Nat.lt_mul_of_div_lt (Nat.lt_succ_self _) (Nat.two_pow_pos _)
    have hlow : base*2^(64-s) ≤ rank cursor.toBitVec := by
      rw [← hblock]
      exact Nat.div_mul_le_self _ _
    have hbitvec : (advanceCursor large.mask cursor &&& (ms ^^^ large.mask))=0 ↔
        2^(64-s)∣rank (advanceCursor large.mask cursor).toBitVec := by
      rw [← UInt64.toBitVec_inj,UInt64.toBitVec_and,UInt64.toBitVec_xor,hms,hmask]
      exact htest
    rw [scanLarge,emitBucket_eq ht hk]
    split
    · rename_i hzero
      have hmul := hbitvec.mp hzero
      have hfinal : reached (advanceCursor large.mask cursor).toBitVec=(base+1)*2^(64-s) := by
        refine le_antisymm (hreach ▸ hend) ?_
        by_cases hc : (advanceCursor large.mask cursor).toBitVec=0
        · rw [reached,if_pos hc]
          exact hbase
        · rw [reached,if_neg hc] at hreach ⊢
          obtain ⟨q,hq⟩ := hmul
          rw [hq,Nat.mul_comm]
          refine Nat.mul_le_mul_left _ ?_
          by_contra hlt
          have hle : q ≤ base := by omega
          have h1 : 2^(64-s)*q ≤ 2^(64-s)*base := Nat.mul_le_mul_left _ hle
          have h2 : 2^(64-s)*base=base*2^(64-s) := Nat.mul_comm _ _
          omega
      refine ⟨hfinal,?_⟩
      rw [←hreach,hfinal]
    · rename_i hnonzero
      have hc : (advanceCursor large.mask cursor).toBitVec≠0 := by
        intro hc
        refine hnonzero (hbitvec.mpr ?_)
        rw [hc,rank_zero]
        exact Nat.dvd_zero _
      rw [reached,if_neg hc] at hreach
      have hne : rank (advanceCursor large.mask cursor).toBitVec≠(base+1)*2^(64-s) := by
        intro heq
        exact hnonzero (hbitvec.mpr (heq ▸ Nat.dvd_mul_left _ _))
      have hnext : rank (advanceCursor large.mask cursor).toBitVec/2^(64-s)=base := by
        refine Nat.div_eq_of_lt_le ?_ ?_
        · omega
        · omega
      obtain ⟨hfin,hemits⟩ := ih (advanceCursor large.mask cursor) (by omega) hnext
      rw [Nat.div_mul_cancel hstart,hreach] at hemits
      refine ⟨hfin,(hemits.append_left _).trans (within_append ?_ hend _)⟩
      exact Nat.mul_le_mul_right _ (Nat.le_succ _)

namespace DictState

def liveBuckets (d : DictState T) : ℕ :=
  if d.isRehashing then min d.table0.size d.table1.size else d.table0.size

/-- A call from a cursor goes to the end of its block, of which there are at most as many as live
buckets, and emits the entries up to there: those of its block at least from the cursor on, and no
others if the cursor stands at the start of the block. -/
structure Sweeps (d : DictState T) (s : ℕ) : Prop where
  bits : s ≤ 64
  buckets : 2^s ≤ d.liveBuckets
  passes : ∀ cursor,(rank cursor.toBitVec/2^(64-s)+1)*2^(64-s) ≤
    reached (d.scan cursor).2.toBitVec
  stops : ∀ cursor,2^(64-s)∣reached (d.scan cursor).2.toBitVec
  emits : ∀ cursor,∃ low₀ low₁,low₀ ≤ rank cursor.toBitVec ∧ low₁ ≤ rank cursor.toBitVec ∧
    (2^(64-s)∣rank cursor.toBitVec → low₀=rank cursor.toBitVec ∧ low₁=rank cursor.toBitVec) ∧
    (d.scan cursor).1 ~ within low₀ (reached (d.scan cursor).2.toBitVec) d.table0.entries++
      within low₁ (reached (d.scan cursor).2.toBitVec) d.table1.entries

variable {d : DictState T}

theorem block_end_bound (s : ℕ) (cursor : UInt64) :
    (rank cursor.toBitVec/2^(64-s)+1)*2^(64-s) ≤ 2^64 := by
  have h := block_end_le (c := rank cursor.toBitVec) (Nat.two_pow_pos 64)
    (Nat.pow_dvd_pow 2 (Nat.sub_le 64 s))
  rwa [Nat.div_eq_of_lt (rank_lt cursor.toBitVec),Nat.zero_add,Nat.one_mul] at h

theorem Valid.sweeps_of (hd : d.Valid) {s : ℕ} (hs : s ≤ 64) (hbuckets : 2^s ≤ d.liveBuckets)
    (hscan : d.empty=false → ∀ cursor,
      reached (d.scan cursor).2.toBitVec=(rank cursor.toBitVec/2^(64-s)+1)*2^(64-s) ∧
      ∃ low₀ low₁,low₀ ≤ rank cursor.toBitVec ∧ low₁ ≤ rank cursor.toBitVec ∧
        (2^(64-s)∣rank cursor.toBitVec → low₀=rank cursor.toBitVec ∧ low₁=rank cursor.toBitVec) ∧
        (d.scan cursor).1 ~
          within low₀ ((rank cursor.toBitVec/2^(64-s)+1)*2^(64-s)) d.table0.entries++
            within low₁ ((rank cursor.toBitVec/2^(64-s)+1)*2^(64-s)) d.table1.entries) :
    d.Sweeps s := by
  cases hempty : d.empty with
  | false =>
    refine ⟨hs,hbuckets,fun cursor => ?_,fun cursor => ?_,fun cursor => ?_⟩
    · exact (hscan hempty cursor).1.ge
    · rw [(hscan hempty cursor).1]
      exact Nat.dvd_mul_left _ _
    · rw [(hscan hempty cursor).1]
      exact (hscan hempty cursor).2
  | true =>
    have hscan : ∀ cursor,d.scan cursor=([],0) := fun cursor => by
      rw [DictState.scan,if_pos hempty]
    have hreached : ∀ cursor,reached (d.scan cursor).2.toBitVec=2^64 := fun cursor => by
      rw [hscan]
      rfl
    have hnone : d.table0.entries++d.table1.entries=[] := by
      have hzero := beq_iff_eq.mp hempty
      rw [hd.size_eq] at hzero
      exact length_eq_zero_iff.mp hzero
    refine ⟨hs,hbuckets,fun cursor => ?_,fun cursor => ?_,fun cursor => ?_⟩
    · rw [hreached]
      exact block_end_bound s cursor
    · rw [hreached]
      exact Nat.pow_dvd_pow 2 (Nat.sub_le 64 s)
    · refine ⟨_,_,le_rfl,le_rfl,fun _ => ⟨rfl,rfl⟩,?_⟩
      rw [hscan,within,within,←filter_append,hnone]
      rfl

theorem scan_both {small large : Table T} (hs : small.Ok) (hl : large.Ok)
    (hle : small.size ≤ large.size) : ∃ s,s ≤ 64 ∧ 2^s ≤ small.size ∧ ∀ cursor,
    reached (scanLarge large small.mask (2^64) cursor).2.toBitVec=
      (rank cursor.toBitVec/2^(64-s)+1)*2^(64-s) ∧
    ∃ low₀ low₁,low₀ ≤ rank cursor.toBitVec ∧ low₁ ≤ rank cursor.toBitVec ∧
      (2^(64-s)∣rank cursor.toBitVec → low₀=rank cursor.toBitVec ∧ low₁=rank cursor.toBitVec) ∧
      emitBucket small (cursor &&& small.mask)++(scanLarge large small.mask (2^64) cursor).1 ~
        within low₀ ((rank cursor.toBitVec/2^(64-s)+1)*2^(64-s)) small.entries++
          within low₁ ((rank cursor.toBitVec/2^(64-s)+1)*2^(64-s)) large.entries := by
  obtain ⟨k,-,hk⟩ := hs.power
  obtain ⟨j,-,hj⟩ := hl.power
  have hkj : k ≤ j := by
    rw [hk,hj] at hle
    exact (Nat.pow_le_pow_iff_right (by decide)).mp hle
  have hmin : min k 64 ≤ min j 64 := min_le_min_right 64 hkj
  refine ⟨min k 64,min_le_right k 64,?_,fun cursor => ?_⟩
  · rw [hk]
    exact Nat.pow_le_pow_right (by decide) (min_le_left k 64)
  · obtain ⟨hfin,hemits⟩ := scanLarge_emits hl hj hmin (small.mask_toBitVec hk) _
      (block_end_bound _ cursor) (2^64) cursor (Nat.le_add_right _ _) rfl
    refine ⟨hfin,_,_,Nat.div_mul_le_self _ _,Nat.div_mul_le_self _ _,fun hdvd => ?_,
      Perm.append (.of_eq (emitBucket_eq hs hk cursor)) hemits⟩
    have hfine : 2^(64-min j 64)∣2^(64-min k 64) := Nat.pow_dvd_pow 2 (by omega)
    exact ⟨Nat.div_mul_cancel hdvd,Nat.div_mul_cancel (hfine.trans hdvd)⟩

theorem Valid.sweeps (hd : d.Valid) : ∃ s,d.Sweeps s := by
  cases hr : d.isRehashing with
  | true =>
    have hlive : d.liveBuckets=min d.table0.size d.table1.size := if_pos hr
    have hactive := hd.active (of_decide_eq_true hr)
    by_cases hle : d.table0.size ≤ d.table1.size
    · obtain ⟨s,hs,hbuckets,hboth⟩ := scan_both hd.table0 hactive hle
      refine ⟨s,hd.sweeps_of hs (by rwa [hlive,min_eq_left hle]) fun hempty cursor => ?_⟩
      simp only [DictState.scan,hempty,hr,if_pos hle,Bool.false_eq_true,if_false,if_true]
      exact hboth cursor
    · obtain ⟨s,hs,hbuckets,hboth⟩ := scan_both hactive hd.table0 (Nat.le_of_not_le hle)
      refine ⟨s,hd.sweeps_of hs (by rwa [hlive,min_eq_right (Nat.le_of_not_le hle)])
        fun hempty cursor => ?_⟩
      simp only [DictState.scan,hempty,hr,if_neg hle,Bool.false_eq_true,if_false,if_true]
      obtain ⟨hreached,low₀,low₁,h₀,h₁,hstart,hemits⟩ := hboth cursor
      exact ⟨hreached,low₁,low₀,h₁,h₀,fun hdvd => (hstart hdvd).symm,
        hemits.trans perm_append_comm⟩
  | false =>
    obtain ⟨k,-,hk⟩ := hd.table0.power
    have hneg : d.rehashIndex < 0 := lt_of_not_ge (of_decide_eq_false hr)
    have hlive : d.liveBuckets=d.table0.size := if_neg (by simp [hr])
    refine ⟨min k 64,hd.sweeps_of (min_le_right k 64) ?_ fun hempty cursor => ?_⟩
    · rw [hlive,hk]
      exact Nat.pow_le_pow_right (by decide) (min_le_left k 64)
    · simp only [DictState.scan,hempty,hr,Bool.false_eq_true,if_false]
      rw [advanceCursor_toBitVec,Table.mask_toBitVec hk,reached_next (min_le_right k 64)]
      refine ⟨rfl,_,_,Nat.div_mul_le_self _ _,le_rfl,
        fun hdvd => ⟨Nat.div_mul_cancel hdvd,rfl⟩,?_⟩
      rw [emitBucket_eq hd.table0 hk,hd.idle hneg]
      exact .of_eq (append_nil _).symm

theorem scan_covers (hd : d.Valid) (cursor : UInt64) {e : Entry T}
    (he : e∈d.entries) (h1 : rank cursor.toBitVec ≤ keyRank e.1)
    (h2 : keyRank e.1 < reached (d.scan cursor).2.toBitVec) : e∈(d.scan cursor).1 := by
  obtain ⟨s,hsweeps⟩ := hd.sweeps
  obtain ⟨low₀,low₁,h₀,h₁,-,hemits⟩ := hsweeps.emits cursor
  rw [hemits.mem_iff,mem_append,mem_within,mem_within]
  rcases mem_append.mp he with he | he
  · exact .inl ⟨he,h₀.trans h1,h2⟩
  · exact .inr ⟨he,h₁.trans h1,h2⟩

end DictState

def scan (d : Dict T) (cursor : UInt64) : List (Entry T)×UInt64 := d.state.scan cursor

inductive Op (T : Type) where
  | insert (key : Bytes) (value : T)
  | erase (key : Bytes)
  | find (key : Bytes)
  | rehashSteps (buckets : ℤ)

def Op.apply (d : Dict T) : Op T → Dict T
  | .insert key value => (d.insert key value).1
  | .erase key => (d.erase key).1
  | .find key => (d.find key).2
  | .rehashSteps buckets => d.rehashSteps buckets

def tablesAlong (d : Dict T) (ops : List (Op T)) : List (Dict T) := ops.scanl Op.apply d

/-- `ScanRun d c tables emitted`: from table `d` and cursor `c`, scan calls with any calls
between them run until cursor zero comes back. `tables` lists every table from the first
scan call to the last and `emitted` everything emitted. -/
inductive ScanRun : Dict T → UInt64 → List (Dict T) → List (Entry T) → Prop where
  | last {d : Dict T} {cursor : UInt64} (h : (d.scan cursor).2=0) :
      ScanRun d cursor [d] (d.scan cursor).1
  /-- Any other call is followed by some operations and a call with its cursor. -/
  | next {d : Dict T} {cursor : UInt64} (ops : List (Op T)) {tables : List (Dict T)}
      {emitted : List (Entry T)} (h : (d.scan cursor).2≠0)
      (rest : ScanRun (ops.foldl Op.apply d) (d.scan cursor).2 tables emitted) :
      ScanRun d cursor (tablesAlong d ops++tables) ((d.scan cursor).1++emitted)

theorem ScanRun.start_mem {d : Dict T} {cursor : UInt64} {tables : List (Dict T)}
    {emitted : List (Entry T)} (h : ScanRun d cursor tables emitted) : d∈tables := by
  cases h with
  | last h => exact mem_singleton.mpr rfl
  | next ops h rest =>
    refine mem_append_left _ ?_
    cases ops with
    | nil => exact mem_singleton.mpr rfl
    | cons op ops =>
      rw [tablesAlong,scanl_cons]
      exact mem_cons_self

theorem ScanRun.covers {d : Dict T} {cursor : UInt64} {tables : List (Dict T)}
    {emitted : List (Entry T)} (h : ScanRun d cursor tables emitted) {key : Bytes}
    (hstay : ∀ t∈tables, (t.lookup key).isSome) (hpos : rank cursor.toBitVec ≤ keyRank key) :
    ∃ e∈emitted, e.1=key := by
  have hnow : ∀ (d : Dict T) (cursor : UInt64), (d.lookup key).isSome →
      rank cursor.toBitVec ≤ keyRank key → keyRank key < reached (d.scan cursor).2.toBitVec →
      ∃ e∈(d.scan cursor).1, e.1=key := by
    intro d cursor hsome h1 h2
    obtain ⟨v,hv⟩ := Option.isSome_iff_exists.mp hsome
    exact ⟨⟨key,v⟩,DictState.scan_covers d.valid cursor (mem_entries.mpr hv) h1 h2,rfl⟩
  induction h with
  | @last d cursor h =>
    refine hnow d cursor (hstay d (mem_singleton.mpr rfl)) hpos ?_
    rw [h]
    exact rank_lt _
  | @next d cursor ops tables emitted h rest ih =>
    by_cases hpass : keyRank key < reached (d.scan cursor).2.toBitVec
    · obtain ⟨e,he,hk⟩ := hnow d cursor (hstay d (ScanRun.next ops h rest).start_mem) hpos hpass
      exact ⟨e,mem_append_left _ he,hk⟩
    · have hne : (d.scan cursor).2.toBitVec≠0 := fun hz => h (UInt64.toBitVec_inj.mp hz)
      rw [reached,if_neg hne,Nat.not_lt] at hpass
      obtain ⟨e,he,hk⟩ := ih (fun t ht => hstay t (mem_append_right _ ht)) hpass
      exact ⟨e,mem_append_right _ he,hk⟩

/-- Every key that is in the table from the first scan call of a walk to the last is
emitted at least once, however the table is resized between calls. -/
theorem scan_complete {d : Dict T} {tables : List (Dict T)} {emitted : List (Entry T)}
    (hrun : ScanRun d 0 tables emitted) {key : Bytes}
    (hstay : ∀ t∈tables, (t.lookup key).isSome) : ∃ e∈emitted, e.1=key :=
  hrun.covers hstay ((rank_zero 64).trans_le (Nat.zero_le _))

def walkStart : Dict Unit := ((init : Dict Unit).insert [97] ()).1

def walkGrowth : List (Op Unit) :=
  [.insert [98] (),.insert [99] (),.insert [100] (),.insert [101] (),.find [97]]

theorem scan_complete_growing : ∃ (tables : List (Dict Unit)) (emitted : List (Entry Unit)),
    ScanRun walkStart 0 tables emitted ∧ (∀ t∈tables, (t.lookup [97]).isSome) ∧
      ∃ e∈emitted, e.1=[97] := by
  have hrun : ScanRun walkStart 0 _ _ := ScanRun.next walkGrowth (by decide)
    (ScanRun.next [.rehashSteps 1] (by decide)
      (ScanRun.next [] (by decide) (ScanRun.last (by decide))))
  refine ⟨_,_,hrun,?stay,scan_complete hrun ?stay⟩
  decide

/-! ## Walks over an unchanged table -/

variable {T : Type}

/-- What at most the given number of calls emits until cursor zero comes back; none if it does
not. -/
def walk (d : Dict T) : ℕ → UInt64 → Option (List (Entry T))
  | 0,_ => none
  | calls+1,cursor =>
    if (d.scan cursor).2=0 then some (d.scan cursor).1
    else (walk d calls (d.scan cursor).2).map ((d.scan cursor).1++·)

theorem scan_block {d : Dict T} {s : ℕ} (hs : d.state.Sweeps s) {cursor : UInt64}
    (hdvd : 2^(64-s)∣rank cursor.toBitVec) :
    (d.scan cursor).1 ~
      within (rank cursor.toBitVec) (reached (d.scan cursor).2.toBitVec) d.entries := by
  obtain ⟨low₀,low₁,-,-,hstart,hemits⟩ := hs.emits cursor
  obtain ⟨rfl,rfl⟩ := hstart hdvd
  rw [within,within,←List.filter_append] at hemits
  exact hemits

theorem walk_from {d : Dict T} {s : ℕ} (hs : d.state.Sweeps s) (calls : ℕ) :
    ∀ cursor : UInt64,2^s ≤ calls+rank cursor.toBitVec/2^(64-s) →
      ∃ emitted,d.walk calls cursor=some emitted ∧
        (2^(64-s)∣rank cursor.toBitVec →
          emitted ~ within (rank cursor.toBitVec) (2^64) d.entries) := by
  have hpos : 0 < 2^(64-s) := Nat.two_pow_pos _
  have hblocks : 2^s*2^(64-s)=2^64 := by
    rw [←Nat.pow_add,Nat.add_sub_cancel' hs.bits]
  induction calls with
  | zero =>
    intro cursor hleft
    have hlt : rank cursor.toBitVec/2^(64-s) < 2^s := by
      rw [Nat.div_lt_iff_lt_mul hpos,hblocks]
      exact rank_lt _
    omega
  | succ calls ih =>
    intro cursor hleft
    rw [walk]
    split
    · rename_i hzero
      refine ⟨_,rfl,fun hdvd => ?_⟩
      have hblock := scan_block hs hdvd
      rw [hzero] at hblock
      exact hblock
    · rename_i hgoes
      have hne : (d.scan cursor).2.toBitVec≠0 := fun hz => hgoes (UInt64.toBitVec_inj.mp hz)
      have hreached : reached (d.scan cursor).2.toBitVec=rank (d.scan cursor).2.toBitVec :=
        if_neg hne
      have hpasses := hs.passes cursor
      have hstops := hs.stops cursor
      rw [show d.state.scan cursor=d.scan cursor from rfl,hreached] at hpasses hstops
      have hfurther : rank cursor.toBitVec/2^(64-s)+1 ≤ rank (d.scan cursor).2.toBitVec/2^(64-s) :=
        (Nat.le_div_iff_mul_le hpos).mpr hpasses
      obtain ⟨rest,hrest,hemits⟩ := ih (d.scan cursor).2 (by omega)
      rw [hrest]
      refine ⟨_,rfl,fun hdvd => ?_⟩
      have hblock := scan_block hs hdvd
      rw [hreached] at hblock
      have hlow : rank cursor.toBitVec ≤ rank (d.scan cursor).2.toBitVec := by
        rw [←Nat.div_mul_cancel hdvd,←Nat.div_mul_cancel hstops]
        exact Nat.mul_le_mul_right _ (by omega)
      exact (hblock.append (hemits hstops)).trans (within_append hlow (rank_lt _).le _)

/-- **Walks**: repeated calls return cursor zero after at most as many calls as the smaller live
table has buckets, from every cursor; from cursor zero they emit every entry, each key once. -/
theorem walk_unchanged (d : Dict T) :
    (∀ cursor,(d.walk d.state.liveBuckets cursor).isSome=true) ∧
      ∃ emitted,d.walk d.state.liveBuckets 0=some emitted ∧ emitted ~ d.entries ∧
        emitted.NodupKeys := by
  obtain ⟨s,hs⟩ := d.valid.sweeps
  constructor
  · intro cursor
    obtain ⟨emitted,hwalk,-⟩ := walk_from hs d.state.liveBuckets cursor
      (hs.buckets.trans (Nat.le_add_right _ _))
    rw [hwalk]
    rfl
  · obtain ⟨emitted,hwalk,hemits⟩ := walk_from hs d.state.liveBuckets 0
      (hs.buckets.trans (Nat.le_add_right _ _))
    have hzero : rank (0 : UInt64).toBitVec=0 := rank_zero 64
    rw [hzero] at hemits
    have hall : within 0 (2^64) d.entries=d.entries :=
      List.filter_eq_self.mpr fun e _ => decide_eq_true ⟨Nat.zero_le _,rank_lt _⟩
    have hperm := hemits (Nat.dvd_zero _)
    rw [hall] at hperm
    exact ⟨emitted,hwalk,hperm,(List.perm_nodupKeys hperm).mpr d.entries_nodupKeys⟩

/-- A walk over a table whose rehash has begun. -/
example : ((walkGrowth.foldl Op.apply walkStart).walk 4 0).map List.length=some 5 := by
  decide +kernel

end Mnemos.Dict

/-! ## Whole runs of the table against a finite map -/

namespace Mnemos.Dict

open List

variable {T : Type}

namespace DictState

/-- Inner loop of `rehashSteps`, each round reading `tables_[0][idx]` before its bound is tested.
A read outside the table gives `none`. -/
def skipChecked (t : Table T) : ℕ → ℕ → ℤ → Option (ℕ×ℤ×Bool)
  | 0,_,_ => none
  | fuel+1,idx,visits =>
    match t.buckets[idx]? with
    | none => none
    | some chain =>
      if chain.isEmpty then
        if visits-1=0 then some (idx+1,visits-1,true)
        else if t.size ≤ idx+1 then some (idx+1,visits-1,false)
        else skipChecked t fuel (idx+1) (visits-1)
      else some (idx,visits,false)

/-- Outer loop of `rehashSteps` with its accesses to `tables_[0]` checked. -/
def rehashLoopChecked : ℕ → ℤ → DictState T → Option (DictState T×Bool)
  | 0,_,d => some (d,false)
  | buckets+1,visits,d =>
    if 0 < d.table0.used then
      match skipChecked d.table0 (d.table0.size+1) d.rehashIndex.toNat visits with
      | none => none
      | some (i,_,true) => some ({ d with rehashIndex := i },true)
      | some (i,visits,false) =>
        if d.table0.size ≤ i then some ({ d with rehashIndex := i },false)
        else
          match d.table0.buckets[i]? with
          | none => none
          | some _ => rehashLoopChecked buckets visits (moveBucket { d with rehashIndex := i })
    else some (d,false)

/-- `rehashSteps` with its accesses to `tables_[0]` checked. -/
def rehashStepsChecked (d : DictState T) (buckets : ℤ) : Option (DictState T×Bool) :=
  if d.isRehashing then
    match rehashLoopChecked buckets.toNat (buckets*10) d with
    | none => none
    | some (d,true) => some (d,true)
    | some (d,false) =>
      if d.table0.used=0 then some (⟨d.table1,Table.none,-1⟩,false) else some (d,true)
  else some (d,false)

theorem skipChecked_eq (t : Table T) :
    ∀ (fuel idx : ℕ) (visits : ℤ), idx < t.size → t.size ≤ idx+fuel →
      skipChecked t fuel idx visits=some (skipEmpty (t.buckets.drop idx) idx visits) := by
  intro fuel
  induction fuel with
  | zero =>
    intro idx visits hlt hfuel
    omega
  | succ fuel ih =>
    intro idx visits hlt hfuel
    have hlt' : idx < t.buckets.length := hlt
    rw [skipChecked,getElem?_eq_getElem hlt',drop_eq_getElem_cons hlt',skipEmpty]
    dsimp only
    split
    · split
      · rfl
      · split
        · rename_i hend
          rw [drop_eq_nil_of_le hend]
          rfl
        · rename_i hend
          exact ih (idx+1) (visits-1) (Nat.lt_of_not_le hend) (by omega)
    · rfl

theorem Valid.rehashIndex_lt {d : DictState T} (hd : d.Valid) (hused : 0 < d.table0.used) :
    d.rehashIndex.toNat < d.table0.size := by
  rw [hd.table0.counted] at hused
  obtain ⟨e,he⟩ := exists_mem_of_length_pos hused
  obtain ⟨i,hin,hi⟩ := Table.mem_entries.mp he
  by_contra hge
  have hlow : (i : ℤ) < d.rehashIndex := by omega
  rw [hd.swept i hlow] at hi
  exact absurd hi not_mem_nil

theorem rehashLoopChecked_eq (n : ℕ) : ∀ (visits : ℤ) {d : DictState T}, d.Valid →
    0 ≤ d.rehashIndex → rehashLoopChecked n visits d=some (rehashLoop n visits d) := by
  induction n with
  | zero =>
    intro visits d _ _
    rfl
  | succ n ih =>
    intro visits d hd hr
    rw [rehashLoopChecked,rehashLoop]
    split
    · rename_i hused
      rw [skipChecked_eq d.table0 _ _ _ (hd.rehashIndex_lt hused) (by omega)]
      have hspec := skipEmpty_spec d.table0.buckets _ d.rehashIndex.toNat visits rfl
      generalize skipEmpty (d.table0.buckets.drop d.rehashIndex.toNat)
        d.rehashIndex.toNat visits=res at hspec ⊢
      obtain ⟨i,visits',stop⟩ := res
      cases stop with
      | true => rfl
      | false =>
        dsimp only
        split
        · rfl
        · rename_i hlt
          have hlt' : i < d.table0.buckets.length := Nat.lt_of_not_le hlt
          rw [getElem?_eq_getElem hlt']
          obtain ⟨hmv,_,hmr⟩ := moveBucket_valid (hd.advance hr hspec.2) (Int.natCast_nonneg i)
            (Nat.lt_of_not_le hlt)
          exact ih visits' hmv hmr
    · rfl

theorem rehashStepsChecked_eq {d : DictState T} (hd : d.Valid) (n : ℤ) :
    d.rehashStepsChecked n=some (d.rehashSteps n) := by
  rw [rehashStepsChecked,rehashSteps]
  split
  · rename_i hr
    rw [rehashLoopChecked_eq n.toNat (n*10) hd (of_decide_eq_true hr)]
    generalize rehashLoop n.toNat (n*10) d=res
    obtain ⟨d',stop⟩ := res
    cases stop with
    | true => rfl
    | false =>
      dsimp only
      split <;> rfl
  · rfl

end DictState

inductive Call (T : Type) where
  | insert (key : Bytes) (value : T)
  | find (key : Bytes)
  | findConst (key : Bytes)
  | erase (key : Bytes)
  | clear
  | rehashSteps (buckets : ℤ)

inductive Answer (T : Type) where
  | added (isNew : Bool)
  | found (value : Option T)
  | erased (wasThere : Bool)
  | nothing

/-- Run one call on the stored tables. A `const` `find` casts the constness away and is a
`find`. How far a migration has come is no answer about the stored map. -/
def Call.run (d : DictState T) : Call T → DictState T×Answer T
  | .insert key value => ((d.insert key value).1,.added (d.insert key value).2)
  | .find key => ((d.find key).2,.found (d.find key).1)
  | .findConst key => ((d.find key).2,.found (d.find key).1)
  | .erase key => ((d.erase key).1,.erased (d.erase key).2)
  | .clear => (DictState.init,.nothing)
  | .rehashSteps buckets => ((d.rehashSteps buckets).1,.nothing)

/-- The `rehashSteps` call of a `rehashStep()`, if it makes one. -/
def stepCalls (d : DictState T) : List (DictState T×ℤ) :=
  if d.isRehashing then [(d,1)] else []

/-- Every `rehashSteps` call that a call makes, with the table it starts from. -/
def Call.migrations (d : DictState T) : Call T → List (DictState T×ℤ)
  | .insert _ _ =>
    stepCalls d++if d.rehashStep.empty then [] else stepCalls d.rehashStep
  | .find _ => if d.empty then [] else stepCalls d
  | .findConst _ => if d.empty then [] else stepCalls d
  | .erase _ => if d.empty then [] else stepCalls d
  | .clear => []
  | .rehashSteps buckets => [(d,buckets)]

def runCalls : List (Call T) → DictState T → DictState T×List (Answer T)
  | [],d => (d,[])
  | c::cs,d => ((runCalls cs (c.run d).1).1,(c.run d).2::(runCalls cs (c.run d).1).2)

def Call.apply (m : Finmap fun _ : Bytes => T) : Call T → (Finmap fun _ : Bytes => T)×Answer T
  | .insert key value => (m.insert key value,.added (m.lookup key).isNone)
  | .find key => (m,.found (m.lookup key))
  | .findConst key => (m,.found (m.lookup key))
  | .erase key => (m.erase key,.erased (m.lookup key).isSome)
  | .clear => (∅,.nothing)
  | .rehashSteps _ => (m,.nothing)

def applyCalls : List (Call T) → (Finmap fun _ : Bytes => T) →
    (Finmap fun _ : Bytes => T)×List (Answer T)
  | [],m => (m,[])
  | c::cs,m => ((applyCalls cs (c.apply m).1).1,(c.apply m).2::(applyCalls cs (c.apply m).1).2)

/-- The table stands for the finite map: its facts hold and its entries are the map's. -/
structure Stands (d : DictState T) (m : Finmap fun _ : Bytes => T) : Prop where
  valid : d.Valid
  same : ∀ key, d.entries.dlookup key=m.lookup key

namespace Stands

variable {d : DictState T} {m : Finmap fun _ : Bytes => T}

theorem eq_toFinmap (h : Stands d m) : m=AList.toFinmap ⟨d.entries,h.valid.distinct⟩ := by
  apply Finmap.ext_lookup
  intro key
  exact (h.same key).symm

theorem entries (h : Stands d m) : (d.entries : Multiset (Entry T))=m.entries := by
  rw [h.eq_toFinmap]
  rfl

theorem size (h : Stands d m) : d.size=m.keys.card := by
  rw [h.valid.size_eq,h.eq_toFinmap]
  exact (length_map Sigma.fst).symm

theorem init : Stands (DictState.init : DictState T) ∅ := by
  refine ⟨DictState.init_valid.1,?_⟩
  intro key
  rw [DictState.init_valid.2]
  rfl

theorem perm (h : Stands d m) {d' : DictState T} (hv : d'.Valid) (hp : d'.entries ~ d.entries) :
    Stands d' m :=
  ⟨hv,fun key => (hv.dlookup_perm hp key).trans (h.same key)⟩

theorem run (h : Stands d m) (c : Call T) :
    Stands (c.run d).1 (c.apply m).1 ∧ (c.run d).2=(c.apply m).2 := by
  cases c with
  | insert key value =>
    obtain ⟨hv,hlookup,hnew⟩ := DictState.insert_spec h.valid key value
    refine ⟨⟨hv,?_⟩,?_⟩
    · intro k
      rw [Call.run,Call.apply,hlookup k]
      by_cases hk : k=key
      · subst hk
        rw [if_pos rfl,Finmap.lookup_insert]
      · rw [if_neg hk,Finmap.lookup_insert_of_ne m hk,h.same k]
    · rw [Call.run,Call.apply,hnew,h.same key]
  | find key | findConst key =>
    obtain ⟨hfound,hv,hp⟩ := DictState.find_spec h.valid key
    refine ⟨h.perm hv hp,?_⟩
    rw [Call.run,Call.apply,hfound,h.same key]
  | erase key =>
    obtain ⟨hv,hp,hfound⟩ := DictState.erase_spec h.valid key
    refine ⟨⟨hv,?_⟩,?_⟩
    · intro k
      rw [Call.run,Call.apply,hv.dlookup_perm hp k]
      by_cases hk : k=key
      · subst hk
        rw [dlookup_kerase k h.valid.distinct,Finmap.lookup_erase]
      · rw [dlookup_kerase_ne hk,Finmap.lookup_erase_ne hk,h.same k]
    · rw [Call.run,Call.apply,hfound,h.same key]
  | clear => exact ⟨Stands.init,rfl⟩
  | rehashSteps buckets =>
    obtain ⟨hv,hp⟩ := DictState.rehashSteps_valid h.valid buckets
    exact ⟨h.perm hv hp,rfl⟩

theorem runCalls (calls : List (Call T)) : ∀ {d : DictState T} {m : Finmap fun _ : Bytes => T},
    Stands d m → Stands (Dict.runCalls calls d).1 (applyCalls calls m).1 ∧
      (Dict.runCalls calls d).2=(applyCalls calls m).2 := by
  induction calls with
  | nil =>
    intro d m h
    exact ⟨h,rfl⟩
  | cons c cs ih =>
    intro d m h
    obtain ⟨hstands,hanswer⟩ := h.run c
    obtain ⟨hrest,hanswers⟩ := ih hstands
    refine ⟨hrest,?_⟩
    rw [Dict.runCalls,applyCalls,hanswer,hanswers]

end Stands

structure Layout (d : DictState T) : Prop where
  sizes : ∀ t∈[d.table0,d.table1], t.size=0 ∨ ∃ k, t.size=2^k
  apart : ∀ key, ¬(key∈d.table0.entries.keys ∧ key∈d.table1.entries.keys)
  placed : ∀ t∈[d.table0,d.table1], ∀ i, ∀ e∈t.bucket i, t.slot (hash e.1)=i
  swept : ∀ i : ℕ, (i : ℤ) < d.rehashIndex → d.table0.bucket i=[]

theorem DictState.Valid.layout {d : DictState T} (hd : d.Valid) : Layout d := by
  obtain ⟨k,_,hk⟩ := hd.table0.power
  have htable1 : d.table1=Table.none ∨ d.table1.Ok := by
    by_cases hr : 0 ≤ d.rehashIndex
    · exact .inr (hd.active hr)
    · exact .inl (hd.idle (lt_of_not_ge hr))
  refine ⟨?_,fun key h => hd.apart h.1 h.2,?_,hd.swept⟩
  · intro t ht
    rcases mem_pair.mp ht with rfl | rfl
    · exact .inr ⟨k,hk⟩
    · rcases htable1 with hnone | hok
      · rw [hnone]
        exact .inl rfl
      · obtain ⟨j,_,hj⟩ := hok.power
        exact .inr ⟨j,hj⟩
  · intro t ht
    rcases mem_pair.mp ht with rfl | rfl
    · exact hd.table0.placed
    · rcases htable1 with hnone | hok
      · intro i e he
        rw [hnone] at he
        exact absurd he not_mem_nil
      · exact hok.placed

theorem Call.migrations_valid {d : DictState T} (hd : d.Valid) (c : Call T) :
    ∀ p∈c.migrations d, p.1.Valid := by
  have hstep : ∀ {d : DictState T}, d.Valid → ∀ p∈stepCalls d, p.1.Valid := by
    intro d hd p hp
    rw [stepCalls] at hp
    split at hp
    · rw [mem_singleton.mp hp]
      exact hd
    · exact absurd hp not_mem_nil
  have hlive : ∀ {d : DictState T}, d.Valid →
      ∀ p∈(if d.empty then [] else stepCalls d), p.1.Valid := by
    intro d hd p hp
    split at hp
    · exact absurd hp not_mem_nil
    · exact hstep hd p hp
  cases c with
  | insert key value =>
    intro p hp
    rcases mem_append.mp hp with h | h
    · exact hstep hd p h
    · exact hlive (DictState.rehashStep_valid hd).1 p h
  | find key | findConst key | erase key => exact hlive hd
  | clear =>
    intro p hp
    exact absurd hp not_mem_nil
  | rehashSteps buckets =>
    intro p hp
    rw [mem_singleton.mp hp]
    exact hd

/-- Every sequence of calls answers as it does on a finite map, whose bindings `forEach` lists
once each and `size()` counts; the entries stay in their places, and no call's migration uses an
index outside table 0. -/
theorem runCalls_refines (calls : List (Call T)) :
    (runCalls calls DictState.init).2=(applyCalls calls ∅).2 ∧
      (runCalls calls DictState.init).1.size=(applyCalls calls ∅).1.keys.card ∧
      ((runCalls calls DictState.init).1.entries : Multiset (Entry T))=
        (applyCalls calls ∅).1.entries ∧
      Layout (runCalls calls DictState.init).1 ∧
      ∀ c : Call T, ∀ p∈c.migrations (runCalls calls DictState.init).1,
        p.1.rehashStepsChecked p.2=some (p.1.rehashSteps p.2) := by
  obtain ⟨hstands,hanswers⟩ := Stands.runCalls calls (Stands.init (T := T))
  refine ⟨hanswers,hstands.size,hstands.entries,hstands.valid.layout,?_⟩
  intro c p hp
  exact DictState.rehashStepsChecked_eq (c.migrations_valid hstands.valid p hp) p.2

end Mnemos.Dict
