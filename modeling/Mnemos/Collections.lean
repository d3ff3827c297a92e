import Mnemos.Dict
import Mnemos.Listpack

/-!
# What the collection types share

The encoding limits, sequences of key and value laid out flat, and searches of
such sequences inside a listpack.
-/

namespace Mnemos

open List

structure EncodingLimits where
  hashMaxListpackEntries : ℕ
  hashMaxListpackValue : ℕ
  listMaxListpackBytes : ℕ
  setMaxIntsetEntries : ℕ
  setMaxListpackEntries : ℕ
  setMaxListpackValue : ℕ
  zsetMaxListpackEntries : ℕ
  zsetMaxListpackValue : ℕ

def defaultLimits : EncodingLimits := ⟨512,64,8192,512,128,64,128,64⟩

section Pairs

variable {A : Type}

/-- The loop over a flat sequence two by two; an odd last element is dropped. -/
def pairUp : List A → List (Σ _ : A,A)
  | key::value::rest => ⟨key,value⟩::pairUp rest
  | _ => []

def flatPairs (ps : List (Σ _ : A,A)) : List A := ps.flatMap fun p => [p.1,p.2]

@[simp] theorem flatPairs_cons (p : Σ _ : A,A) (ps : List (Σ _ : A,A)) :
    flatPairs (p::ps)=p.1::p.2::flatPairs ps := rfl

variable (ps : List (Σ _ : A,A))

@[simp] theorem flatPairs_append (qs : List (Σ _ : A,A)) :
    flatPairs (ps++qs)=flatPairs ps++flatPairs qs := flatMap_append

@[simp] theorem flatPairs_length : (flatPairs ps).length=2*ps.length := by
  induction ps with
  | nil => rfl
  | cons p ps ih =>
    rw [flatPairs_cons,length_cons,length_cons,length_cons,ih]
    omega

@[simp] theorem pairUp_flatPairs : pairUp (flatPairs ps)=ps := by
  induction ps with
  | nil => rfl
  | cons p ps ih => rw [flatPairs_cons,pairUp,ih]

theorem flatPairs_pairUp {xs : List A} (h : xs.length%2=0) : flatPairs (pairUp xs)=xs := by
  fun_induction pairUp xs with
  | case1 key value rest ih =>
    rw [length_cons,length_cons] at h
    rw [flatPairs_cons,ih (by omega)]
  | case2 xs hshort =>
    cases xs with
    | nil => rfl
    | cons a xs =>
      cases xs with
      | nil => cases h
      | cons b xs => exact absurd rfl (hshort a b xs)

theorem map_flatPairs {B : Type} (f : A → B) (ps : List (Σ _ : A,A)) :
    (flatPairs ps).map f=flatPairs (ps.map fun p => (⟨f p.1,f p.2⟩ : Σ _ : B,B)) := by
  induction ps with
  | nil => rfl
  | cons p ps ih => simp only [flatPairs_cons,map_cons,ih]

end Pairs

namespace Listpack

theorem findIn_pairs (e : Element) (qs : List (Σ _ : Element,Element)) (k : ℕ) :
    (∃ before q after,qs=before++q::after ∧ q.1=e ∧ (∀ p∈before,p.1≠e) ∧
      findIn e 0 2 (flatPairs qs) (2*k)=some (2*(k+before.length))) ∨
    ((∀ p∈qs,p.1≠e) ∧ findIn e 0 2 (flatPairs qs) (2*k)=none) := by
  induction qs generalizing k with
  | nil => exact .inr ⟨nofun,rfl⟩
  | cons q qs ih =>
    rw [flatPairs_cons,findIn]
    by_cases hq : q.1=e
    · refine .inl ⟨[],q,qs,rfl,hq,nofun,?_⟩
      rw [if_pos (by simp [hq])]
      rfl
    · rw [if_neg (by simp [hq]),findIn,if_neg (by simp),
        show 2*k+1+1=2*(k+1) by omega]
      rcases ih (k+1) with ⟨before,p,after,rfl,hp,hbefore,hfind⟩ | ⟨hnone,hfind⟩
      · refine .inl ⟨q::before,p,after,rfl,hp,fun r hr => ?_,?_⟩
        · rcases mem_cons.mp hr with rfl | hr
          · exact hq
          · exact hbefore r hr
        · rw [hfind,length_cons]
          congr 1
          omega
      · refine .inr ⟨fun r hr => ?_,hfind⟩
        rcases mem_cons.mp hr with rfl | hr
        · exact hq
        · exact hnone r hr

theorem findIn_singles (e : Element) (es : List Element) (k : ℕ) :
    (∃ before after,es=before++e::after ∧ e∉before ∧ findIn e 0 1 es k=some (k+before.length)) ∨
    (e∉es ∧ findIn e 0 1 es k=none) := by
  induction es generalizing k with
  | nil => exact .inr ⟨not_mem_nil,rfl⟩
  | cons a es ih =>
    rw [findIn]
    by_cases ha : a=e
    · refine .inl ⟨[],es,by rw [ha]; rfl,not_mem_nil,?_⟩
      rw [if_pos (by simp [ha,Nat.mod_one])]
      rfl
    · rw [if_neg (by simp [ha])]
      rcases ih (k+1) with ⟨before,after,rfl,hbefore,hfind⟩ | ⟨hnone,hfind⟩
      · refine .inl ⟨a::before,after,rfl,?_,?_⟩
        · rw [mem_cons]
          rintro (h | h)
          · exact ha h.symm
          · exact hbefore h
        · rw [hfind,length_cons]
          congr 1
          omega
      · refine .inr ⟨?_,hfind⟩
        rw [mem_cons]
        rintro (h | h)
        · exact ha h.symm
        · exact hnone h

def stored (ps : List (Dict.Entry Bytes)) : List Element := (flatPairs ps).map elementOf

theorem stored_eq (ps : List (Dict.Entry Bytes)) :
    stored ps=flatPairs (ps.map fun p => (⟨elementOf p.1,elementOf p.2⟩ : Σ _ : Element,Element)) :=
  map_flatPairs elementOf ps

@[simp] theorem map_toString_elementOf (xs : List Bytes) :
    (xs.map elementOf).map Element.toString=xs := by
  rw [map_map]
  conv_rhs => rw [← map_id xs]
  exact map_congr_left fun x _ => toString_elementOf x

theorem findIn_stored (key : Bytes) (ps : List (Dict.Entry Bytes)) :
    (∃ before value after,ps=before++⟨key,value⟩::after ∧ key∉before.keys ∧
      findIn (elementOf key) 0 2 (stored ps) 0=some (2*before.length)) ∨
    (key∉ps.keys ∧ findIn (elementOf key) 0 2 (stored ps) 0=none) := by
  have hkeys : ∀ qs : List (Dict.Entry Bytes),
      (∀ q∈qs.map fun p => (⟨elementOf p.1,elementOf p.2⟩ : Σ _ : Element,Element),
        q.1≠elementOf key) → key∉qs.keys := by
    intro qs hall hin
    obtain ⟨p,hp,rfl⟩ := mem_map.mp hin
    exact hall _ (mem_map_of_mem hp) rfl
  rw [stored_eq]
  rcases findIn_pairs (elementOf key)
    (ps.map fun p => (⟨elementOf p.1,elementOf p.2⟩ : Σ _ : Element,Element)) 0 with
    ⟨before,q,after,hsplit,hq,hbefore,hfind⟩ | ⟨hnone,hfind⟩
  · rw [map_eq_append_iff] at hsplit
    obtain ⟨ps₁,ps₂,rfl,rfl,hps₂⟩ := hsplit
    rw [map_eq_cons_iff] at hps₂
    obtain ⟨⟨k,v⟩,ps₃,rfl,rfl,rfl⟩ := hps₂
    have hk : k=key := elementOf_injective hq
    subst hk
    refine .inl ⟨ps₁,v,ps₃,rfl,hkeys ps₁ hbefore,?_⟩
    rw [Nat.mul_zero] at hfind
    rw [hfind,length_map,Nat.zero_add]
  · exact .inr ⟨hkeys ps hnone,by rw [Nat.mul_zero] at hfind; exact hfind⟩

section Pair

variable {lp : Listpack} {before after : List (Dict.Entry Bytes)} {key value : Bytes}

theorem Holds.get_stored (h : lp.Holds (stored (before++⟨key,value⟩::after))) :
    lp.get (2*before.length+1)=some (elementOf value) := by
  rw [h.get,stored,flatPairs_append,flatPairs_cons,map_append,map_cons,
    map_cons,getElem?_append_right (by simp)]
  simp

theorem Holds.get_key (h : lp.Holds (stored (before++⟨key,value⟩::after))) :
    lp.get (2*before.length)=some (elementOf key) := by
  rw [h.get,stored,flatPairs_append,flatPairs_cons,map_append,map_cons,
    map_cons,getElem?_append_right (by simp)]
  simp

@[simp] theorem stored_length (ps : List (Dict.Entry Bytes)) : (stored ps).length=2*ps.length := by
  rw [stored,length_map,flatPairs_length]

theorem stored_append (ps qs : List (Dict.Entry Bytes)) : stored (ps++qs)=stored ps++stored qs := by
  rw [stored,flatPairs_append,map_append]
  rfl

theorem Holds.erase_pair (h : lp.Holds (stored (before++⟨key,value⟩::after))) :
    ∃ lp',lp.eraseRange (2*before.length) 2=some lp' ∧ lp'.Holds (stored (before++after)) := by
  have hrange : 2*before.length+2 ≤ (stored (before++⟨key,value⟩::after)).length := by
    rw [stored_length,length_append,length_cons]
    omega
  obtain ⟨lp',herase,hholds⟩ := h.eraseRange (by decide : 0 < 2) hrange
  refine ⟨lp',herase,?_⟩
  rw [stored_append,take_left' (stored_length before),← drop_drop,
    drop_left' (stored_length before)] at hholds
  rw [stored_append]
  exact hholds

theorem Holds.insert_pair (h : lp.Holds (stored (before++after))) (hkey : key.length < 2^32)
    (hvalue : value.length < 2^32) :
    ∃ lp' lp'',lp.insertAt (2*before.length) key=some lp' ∧
      lp'.insertAt (2*before.length+1) value=some lp'' ∧
      lp''.Holds (stored (before++⟨key,value⟩::after)) := by
  have hindex : 2*before.length ≤ (stored (before++after)).length := by simp
  obtain ⟨lp',hinsert,hholds⟩ := h.insertAt hkey hindex
  rw [stored_append,take_left' (stored_length before),
    drop_left' (stored_length before)] at hholds
  have hindex' : 2*before.length+1 ≤ (stored before++elementOf key::stored after).length := by
    simp
  obtain ⟨lp'',hinsert',hholds'⟩ := hholds.insertAt hvalue hindex'
  refine ⟨lp',lp'',hinsert,hinsert',?_⟩
  have hlen : (stored before++[elementOf key]).length=2*before.length+1 := by simp
  have hsplit : stored before++elementOf key::stored after=
      (stored before++[elementOf key])++stored after := by simp
  rw [hsplit,take_left' hlen,drop_left' hlen] at hholds'
  have hstored : stored (before++⟨key,value⟩::after)=
      stored before++[elementOf key]++elementOf value::stored after := by
    rw [stored_append,append_assoc]
    rfl
  rw [hstored]
  exact hholds'

end Pair

/-- Every element is stored in the form its text is stored in. -/
def Plain (lp : Listpack) : Prop := Holds lp (lp.toStrings.map elementOf)

theorem Holds.plain {lp : Listpack} {xs : List Bytes} (h : Holds lp (xs.map elementOf)) :
    Plain lp ∧ lp.toStrings=xs := by
  have htexts : lp.toStrings=xs := by rw [h.toStrings,map_toString_elementOf]
  exact ⟨by rw [Plain,htexts]; exact h,htexts⟩

theorem plain_empty : Plain empty ∧ empty.toStrings=[] :=
  Holds.plain (show Holds empty (List.map elementOf []) from holds_empty)

section Plain

variable {lp : Listpack}

theorem Plain.numElements (h : Plain lp) : lp.numElements=lp.toStrings.length := by
  rw [Holds.numElements h,length_map]

theorem Plain.get (h : Plain lp) (index : ℕ) : lp.get index=lp.toStrings[index]?.map elementOf := by
  rw [Holds.get h,getElem?_map]

theorem Plain.append {value : Bytes} (h : Plain lp) (hsize : value.length < 2^32) :
    Plain (lp.append value) ∧ (lp.append value).toStrings=lp.toStrings++[value] := by
  refine Holds.plain ?_
  rw [map_append]
  exact Holds.append h hsize

theorem Plain.insertAt {value : Bytes} {index : ℕ} (h : Plain lp) (hsize : value.length < 2^32)
    (hindex : index ≤ lp.toStrings.length) :
    ∃ lp',lp.insertAt index value=some lp' ∧ Plain lp' ∧
      lp'.toStrings=lp.toStrings.take index++value::lp.toStrings.drop index := by
  have hle : index ≤ (lp.toStrings.map elementOf).length := by rw [length_map]; exact hindex
  obtain ⟨lp',hinsert,hholds⟩ := Holds.insertAt h hsize hle
  refine ⟨lp',hinsert,Holds.plain ?_⟩
  rw [map_append,map_cons,map_take,map_drop]
  exact hholds

theorem Plain.replaceAt {value : Bytes} {index : ℕ} (h : Plain lp) (hsize : value.length < 2^32)
    (hindex : index < lp.toStrings.length) :
    ∃ lp',lp.replaceAt index value=some lp' ∧ Plain lp' ∧
      lp'.toStrings=lp.toStrings.set index value := by
  obtain ⟨lp',hreplace,hholds⟩ := Holds.replaceAt h hsize (by rw [length_map]; exact hindex)
  refine ⟨lp',hreplace,Holds.plain ?_⟩
  rw [map_set]
  exact hholds

theorem Plain.eraseRange {index count : ℕ} (h : Plain lp) (hpos : 0 < count)
    (hrange : index+count ≤ lp.toStrings.length) :
    ∃ lp',lp.eraseRange index count=some lp' ∧ Plain lp' ∧
      lp'.toStrings=lp.toStrings.take index++lp.toStrings.drop (index+count) := by
  obtain ⟨lp',herase,hholds⟩ := Holds.eraseRange h hpos (by rw [length_map]; exact hrange)
  refine ⟨lp',herase,Holds.plain ?_⟩
  rw [map_append,map_take,map_drop]
  exact hholds

end Plain

end Listpack

end Mnemos
