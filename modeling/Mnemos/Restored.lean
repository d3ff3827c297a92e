import Mnemos.Rdb

/-!
# Listpacks taken as they are

Loading adopts a listpack without rebuilding it. What the rest of the code
relies on then depends on its elements: a search finds a text only in the form
the listpack itself would store it in, so keys must be distinct and stored in
that form, and the pairs of a sorted set must already ascend.
-/

namespace Mnemos

open List

/-- A set lists no member twice and finds the members it lists. -/
structure SetValue.WellFormed (s : SetValue) : Prop where
  nodup : s.members.Nodup
  contains : ∀ m∈s.members,s.contains m=true

/-- A hash lists no field twice and finds the values it lists. -/
structure HashValue.WellFormed (h : HashValue) : Prop where
  nodup : h.entries.NodupKeys
  get : ∀ e∈h.entries,h.get e.1=some e.2

/-- A sorted set lists its members once, ascending, with scores that are numbers, and finds them. -/
structure ZSetValue.WellFormed [FloatText] (z : ZSetValue) : Prop where
  nodup : (z.all.map Prod.fst).Nodup
  numbers : ∀ e∈z.all,e.2.isNaN=false
  ascending : z.all.Pairwise fun a b => isBefore a.swap b.swap=true
  score : ∀ (i : ℕ) (e : Bytes×Double),z.all[i]?=some e → z.score e.1=some e.2
  rank : ∀ (i : ℕ) (e : Bytes×Double),z.all[i]?=some e → z.rank e.1=some i

theorem SetValue.Ok.wellFormed {s : SetValue} (h : s.Ok) : s.WellFormed :=
  ⟨h.nodup,fun m hm => (h.contains_iff m).mpr hm⟩

theorem HashValue.Ok.wellFormed {h : HashValue} (hok : h.Ok) : h.WellFormed :=
  ⟨hok.nodupKeys,fun e he => by
    rw [hok.get,HashValue.lookup]
    exact (mem_dlookup_iff hok.nodupKeys).mpr he⟩

theorem ZSetValue.Ok.wellFormed [FloatText] (exact : FloatText.Exact) {z : ZSetValue} (h : z.Ok) :
    z.WellFormed := by
  have hlisting := h.listing
  have hall : z.listing=z.all.map Prod.swap := rfl
  have hmembers : z.all.map Prod.fst=z.listing.map Prod.snd := by
    rw [hall,map_map]
    rfl
  have hnumbers : ∀ e∈z.all,e.2.isNaN=false := fun e he =>
    hlisting.numbers e.swap (mem_map_of_mem he)
  refine ⟨by rw [hmembers]; exact hlisting.distinct,hnumbers,?_,fun i e he => ?_,fun i e he => ?_⟩
  · have hpairs := hlisting.ascending
    rw [hall,pairwise_map] at hpairs
    refine hpairs.imp_of_mem fun ha hb hlt => ?_
    exact (isBefore_iff (hnumbers _ ha) (hnumbers _ hb)).mpr hlt
  · rw [h.score exact,hlisting.scoreIn_iff]
    exact mem_map_of_mem (f := Prod.swap) (mem_of_getElem? he)
  · rw [h.rank]
    obtain ⟨hi,rfl⟩ := List.getElem?_eq_some_iff.mp he
    have hsplit : z.listing=z.listing.take i++z.all[i].swap::z.listing.drop (i+1) := by
      rw [hall,← map_take,← map_drop,← map_cons,← map_append,
        getElem_cons_drop,take_append_drop]
    have hlen : (z.listing.take i).length=i := by
      rw [length_take,hall,length_map]
      omega
    rw [hsplit] at hlisting ⊢
    have hnew : z.all[i].swap.2∉(z.listing.take i).map Prod.snd := fun hmem =>
      hlisting.drop.2 (by rw [map_append]; exact mem_append_left _ hmem)
    have hrank := rankIn_eq (z.listing.drop (i+1)) hnew
    rwa [hlen] at hrank

/-- The element is in the form that its text is stored in. -/
def Minimal (e : Element) : Prop := elementOf e.toString=e

instance (e : Element) : Decidable (Minimal e) := by
  unfold Minimal
  infer_instance

section Sets

variable {lp : Listpack} {es : List Element}

theorem Listpack.Holds.find_isSome (h : lp.Holds es) (m : Bytes) :
    (lp.find m 0 1).isSome=true ↔ elementOf m∈es := by
  rw [h.find]
  rcases Listpack.findIn_singles (elementOf m) es 0 with ⟨before,after,rfl,-,hfind⟩ | ⟨hnone,hfind⟩
  · rw [hfind]
    simp
  · rw [hfind]
    simpa using hnone

theorem SetValue.wellFormed_listPack (h : lp.Holds es) :
    (SetValue.listPack lp).WellFormed ↔
      (es.map Element.toString).Nodup ∧ ∀ e∈es,Minimal e := by
  have hmembers : (SetValue.listPack lp).members=es.map Element.toString := h.toStrings
  constructor
  · rintro ⟨hnodup,hcontains⟩
    rw [hmembers] at hnodup hcontains
    refine ⟨hnodup,fun e he => ?_⟩
    have hfound := (h.find_isSome e.toString).mp (hcontains _ (mem_map_of_mem he))
    exact inj_on_of_nodup_map hnodup hfound he (toString_elementOf _)
  · rintro ⟨hnodup,hminimal⟩
    refine ⟨by rw [hmembers]; exact hnodup,fun m hm => ?_⟩
    rw [hmembers] at hm
    obtain ⟨e,he,rfl⟩ := mem_map.mp hm
    refine (h.find_isSome e.toString).mpr ?_
    rw [hminimal e he]
    exact he

end Sets

section Pairs

variable {lp : Listpack} {qs : List (Σ _ : Element,Element)}

def textPair (q : Σ _ : Element,Element) : Dict.Entry Bytes := ⟨q.1.toString,q.2.toString⟩

theorem Listpack.Holds.pairUp_toStrings (h : lp.Holds (flatPairs qs)) :
    pairUp lp.toStrings=qs.map textPair := by
  rw [h.toStrings,map_flatPairs,pairUp_flatPairs]
  rfl

theorem Listpack.Holds.minimal_of_find (h : lp.Holds (flatPairs qs))
    (hnodup : (qs.map fun q => q.1.toString).Nodup)
    (hfind : ∀ q∈qs,(lp.find q.1.toString 0 2).isSome=true) : ∀ q∈qs,Minimal q.1 := by
  intro q hq
  have hfound := hfind q hq
  rw [h.find] at hfound
  rcases Listpack.findIn_pairs (elementOf q.1.toString) qs 0 with
    ⟨before,p,after,hsplit,hp,-,-⟩ | ⟨-,hnone⟩
  · have hmem : p∈qs := by rw [hsplit]; simp
    have hsame : p=q := inj_on_of_nodup_map hnodup hmem hq (by rw [hp,toString_elementOf])
    rw [Minimal,← hp,hsame]
  · rw [Nat.mul_zero] at hnone
    rw [hnone] at hfound
    cases hfound

variable {q : Σ _ : Element,Element}

theorem Listpack.Holds.find_key {before after : List (Σ _ : Element,Element)} (h : lp.Holds (flatPairs (before++q::after)))
    (hnodup : ((before++q::after).map fun q => q.1.toString).Nodup) (hq : Minimal q.1) :
    lp.find q.1.toString 0 2=some (2*before.length) := by
  rw [h.find,hq]
  rcases Listpack.findIn_pairs q.1 (before++q::after) 0 with
    ⟨before',p,after',hsplit,hp,-,hfind⟩ | ⟨hnone,-⟩
  · rw [Nat.mul_zero,Nat.zero_add] at hfind
    rw [hfind]
    -- distinct keys have one position
    have hidx : (before++q::after)[before.length]?=some q := by simp
    have hidx' : (before++q::after)[before'.length]?=some p := by rw [hsplit]; simp
    have hkeys : ((before++q::after).map fun q => q.1.toString)[before.length]?=
        ((before++q::after).map fun q => q.1.toString)[before'.length]? := by
      rw [getElem?_map,getElem?_map,hidx,hidx',Option.map_some,Option.map_some,hp]
    have hlt : before.length < ((before++q::after).map fun q => q.1.toString).length := by simp
    rw [(getElem?_inj hlt hnodup).mp hkeys]
  · exact absurd rfl (hnone q (by simp))

theorem Listpack.Holds.get_value {before after : List (Σ _ : Element,Element)} (h : lp.Holds (flatPairs (before++q::after))) :
    lp.get (2*before.length+1)=some q.2 := by
  rw [h.get,flatPairs_append,flatPairs_cons,getElem?_append_right (by simp)]
  simp

theorem HashValue.wellFormed_listPack (h : lp.Holds (flatPairs qs)) :
    (HashValue.listPack lp).WellFormed ↔
      (qs.map fun q => q.1.toString).Nodup ∧ ∀ q∈qs,Minimal q.1 := by
  have hentries : (HashValue.listPack lp).entries=qs.map textPair := h.pairUp_toStrings
  have hkeys : (qs.map textPair).keys=qs.map fun q => q.1.toString := by
    rw [List.keys,map_map]
    rfl
  constructor
  · rintro ⟨hnodup,hget⟩
    rw [hentries] at hnodup hget
    rw [NodupKeys,hkeys] at hnodup
    refine ⟨hnodup,h.minimal_of_find hnodup fun q hq => ?_⟩
    have hvalue := hget _ (mem_map_of_mem hq)
    unfold HashValue.get at hvalue
    dsimp only [textPair] at hvalue
    cases hfind : lp.find q.1.toString 0 2 with
    | none =>
      rw [hfind] at hvalue
      cases hvalue
    | some index => rfl
  · rintro ⟨hnodup,hminimal⟩
    refine ⟨by rw [hentries,NodupKeys,hkeys]; exact hnodup,fun e he => ?_⟩
    rw [hentries] at he
    obtain ⟨q,hq,rfl⟩ := mem_map.mp he
    obtain ⟨before,after,rfl⟩ := append_of_mem hq
    unfold HashValue.get
    dsimp only [textPair]
    rw [h.find_key hnodup (hminimal q hq)]
    dsimp only
    rw [h.get_value,Option.map_some]

variable [FloatText]

def scoredPair (q : Σ _ : Element,Element) : ScoredMember :=
  (ZSetValue.elementScore q.2,q.1.toString)

theorem Listpack.Holds.elementScore_eq (exact : FloatText.Exact) (h : lp.Holds (flatPairs qs)) (hq : q∈qs) :
    FloatText.strtod q.2.toString=ZSetValue.elementScore q.2 := by
  have hmem : q.2∈flatPairs qs := mem_flatMap.mpr ⟨q,hq,by simp⟩
  obtain ⟨raw,hraw⟩ := h.entry hmem
  cases hvalue : q.2 with
  | string s => rfl
  | integer n =>
    rw [hvalue] at hraw
    exact exact.strtod_intDecimal n hraw.fits

theorem ZSetValue.all_pairs (exact : FloatText.Exact) (h : lp.Holds (flatPairs qs)) :
    (ZSetValue.listPack lp).all=qs.map fun q => (scoredPair q).swap := by
  rw [ZSetValue.all,h.pairUp_toStrings,map_map]
  refine map_congr_left fun q hq => ?_
  exact Prod.ext rfl (h.elementScore_eq exact hq)

/-- A packed sorted set is well formed when its members are distinct and in stored form and its
pairs ascend and have numbers as scores. -/
theorem ZSetValue.wellFormed_listPack (exact : FloatText.Exact) (h : lp.Holds (flatPairs qs)) :
    (ZSetValue.listPack lp).WellFormed ↔
      (qs.map fun q => q.1.toString).Nodup ∧ (∀ q∈qs,Minimal q.1) ∧
      (∀ q∈qs,(elementScore q.2).isNaN=false) ∧
      qs.Pairwise fun p q => isBefore (scoredPair p) (scoredPair q)=true := by
  have hall := ZSetValue.all_pairs exact h
  have hmembers : ((ZSetValue.listPack lp).all.map Prod.fst)=qs.map fun q => q.1.toString := by
    rw [hall,map_map]
    rfl
  have hascending : (ZSetValue.listPack lp).all.Pairwise
      (fun a b => isBefore a.swap b.swap=true) ↔
      qs.Pairwise fun p q => isBefore (scoredPair p) (scoredPair q)=true := by
    rw [hall,pairwise_map]
    rfl
  constructor
  · rintro ⟨hnodup,hnumbers,hpairs,hscore,-⟩
    rw [hmembers] at hnodup
    refine ⟨hnodup,h.minimal_of_find hnodup fun q hq => ?_,fun q hq => ?_,hascending.mp hpairs⟩
    · obtain ⟨i,hi,rfl⟩ := getElem_of_mem hq
      have hfound := hscore i _ (by rw [hall,getElem?_map,getElem?_eq_getElem hi]; rfl)
      unfold ZSetValue.score at hfound
      dsimp only [Prod.swap,scoredPair] at hfound
      cases hfind : lp.find qs[i].1.toString 0 2 with
      | none =>
        rw [hfind] at hfound
        cases hfound
      | some index => rfl
    · exact hnumbers (scoredPair q).swap (by rw [hall]; exact mem_map_of_mem hq)
  · rintro ⟨hnodup,hminimal,hnumbers,hpairs⟩
    -- the pair at a position is found there
    have hat : ∀ (i : ℕ) (e : Bytes×Double),(ZSetValue.listPack lp).all[i]?=some e →
        ∃ q,e=(scoredPair q).swap ∧ lp.find q.1.toString 0 2=some (2*i) ∧
          lp.get (2*i+1)=some q.2 := by
      intro i e he
      rw [hall,getElem?_map,Option.map_eq_some_iff] at he
      obtain ⟨q,hq,rfl⟩ := he
      obtain ⟨hi,rfl⟩ := List.getElem?_eq_some_iff.mp hq
      have hsplit : qs=qs.take i++qs[i]::qs.drop (i+1) := by simp
      have hlen : (qs.take i).length=i := length_take_of_le hi.le
      have hmin := hminimal qs[i] (getElem_mem hi)
      generalize qs[i]=q at *
      rw [hsplit] at h hnodup
      refine ⟨q,rfl,?_,?_⟩
      · rw [h.find_key hnodup hmin,hlen]
      · have hvalue := h.get_value
        rwa [hlen] at hvalue
    refine ⟨by rw [hmembers]; exact hnodup,fun e he => ?_,hascending.mpr hpairs,
      fun i e he => ?_,fun i e he => ?_⟩
    · rw [hall] at he
      obtain ⟨q,hq,rfl⟩ := mem_map.mp he
      exact hnumbers q hq
    · obtain ⟨q,rfl,hfind,hget⟩ := hat i e he
      unfold ZSetValue.score
      dsimp only [Prod.swap,scoredPair]
      rw [hfind]
      dsimp only
      rw [hget,Option.map_some]
    · obtain ⟨q,rfl,hfind,-⟩ := hat i e he
      unfold ZSetValue.rank
      dsimp only [Prod.swap,scoredPair]
      rw [hfind,Option.map_some]
      congr 1
      omega

end Pairs

/-! ## Collections rebuilt pair by pair -/

namespace HashValue

/-- While the hash is packed, a known field gets a value of 2^32 bytes or more. -/
def longRepeat (seen : List Bytes) : List (Dict.Entry Bytes) → Bool
  | [] => false
  | e::rest =>
    if seen.contains e.1 then decide (2^32 ≤ e.2.length) || longRepeat seen rest
    else if defaultLimits.hashMaxListpackEntries ≤ seen.length ||
        defaultLimits.hashMaxListpackValue < e.1.length ||
        defaultLimits.hashMaxListpackValue < e.2.length then false
    else longRepeat (e.1::seen) rest

theorem foldl_set_hashTable (es : List (Dict.Entry Bytes)) (table : Dict Bytes) :
    (es.foldl (fun h e => (h.set e.1 e.2).2) (hashTable table)).Ok := by
  induction es generalizing table with
  | nil => exact trivial
  | cons e es ih => exact ih _

theorem Ok.size_eq {h : HashValue} (hok : h.Ok) {seen : List Bytes} (hnodup : seen.Nodup)
    (hseen : ∀ f,f∈seen ↔ (h.lookup f).isSome=true) : h.size=seen.length := by
  have hperm : h.entries.keys ~ seen := by
    refine (perm_ext_iff_of_nodup hok.nodupKeys hnodup).mpr fun f => ?_
    rw [hseen,HashValue.lookup,dlookup_isSome]
  rw [hok.size,← hperm.length_eq,List.keys,length_map]

theorem set_new {lp : Listpack} (hok : (listPack lp).Ok) {field value : Bytes}
    (hnew : (listPack lp).lookup field=none) :
    ((listPack lp).set field value).2=
      if (listPack lp).shouldConvert field value then hashTable ((toTable lp).insert field value).1
      else listPack ((lp.append field).append value) := by
  have hmissing : lp.find field 0 2=none := by
    have hcontains := hok.contains field
    rw [hnew] at hcontains
    exact Option.isSome_eq_false_iff.mp hcontains |> Option.isNone_iff_eq_none.mp
  unfold HashValue.set
  dsimp only
  rw [hmissing]
  dsimp only
  split <;> rfl

theorem foldl_set_ok {es : List (Dict.Entry Bytes)} {h : HashValue} {seen : List Bytes}
    (hok : h.Ok) (hnodup : seen.Nodup) (hseen : ∀ f,f∈seen ↔ (h.lookup f).isSome=true)
    (hshort : longRepeat seen es=false) :
    (es.foldl (fun h e => (h.set e.1 e.2).2) h).Ok := by
  induction es generalizing h seen with
  | nil => exact hok
  | cons e es ih =>
    cases h with
    | hashTable table => exact foldl_set_hashTable (e::es) table
    | listPack lp =>
      rw [longRepeat] at hshort
      rw [foldl_cons]
      by_cases hmem : e.1∈seen
      · rw [if_pos (contains_iff_mem.mpr hmem),Bool.or_eq_false_iff,decide_eq_false_iff_not,not_le] at hshort
        obtain ⟨hok',hlookup,-⟩ := hok.set fun _ _ => hshort.1
        refine ih hok' hnodup (fun f => ?_) hshort.2
        rw [hlookup,hseen]
        split
        · rename_i hf
          rw [hf,← hseen]
          simpa using hmem
        · rfl
      · have hnew : (listPack lp).lookup e.1=none := by
          rw [hseen] at hmem
          simpa using hmem
        rw [if_neg (fun hc => hmem (contains_iff_mem.mp hc))] at hshort
        by_cases hconvert : (listPack lp).shouldConvert e.1 e.2=true
        · rw [set_new hok hnew,if_pos hconvert]
          exact foldl_set_hashTable es _
        · rw [shouldConvert,hok.size_eq hnodup hseen] at hconvert
          rw [if_neg hconvert] at hshort
          have hfresh : ((listPack lp).lookup e.1).isSome=true → e.2.length < 2^32 := by
            rw [hnew]
            exact fun hbound => absurd hbound (by decide)
          obtain ⟨hok',hlookup,-⟩ := hok.set fun _ => hfresh
          refine ih hok' (nodup_cons.mpr ⟨hmem,hnodup⟩) (fun f => ?_) hshort
          rw [hlookup,mem_cons]
          split
          · rename_i hf
            simp [hf]
          · rename_i hf
            rw [hseen]
            simp [hf]

theorem foldl_set_empty {es : List (Dict.Entry Bytes)} (hshort : longRepeat [] es=false) :
    (es.foldl (fun h e => (h.set e.1 e.2).2) empty).Ok := by
  refine foldl_set_ok empty_ok nodup_nil (fun f => ?_) hshort
  rw [HashValue.lookup,entries_empty]
  simp

end HashValue

namespace ZSetValue

/-- Members of the packed form, each with whether its score is not a number: in the end, or when
the skip list is filled, all scores are numbers, and no other score comes later. -/
def scoresStay : List (Bytes×Bool) → List (Bytes×Double) → Bool
  | marks,[] => marks.all (!·.2)
  | marks,e::rest =>
    if (marks.map Prod.fst).contains e.1 then scoresStay ((e.1,e.2.isNaN)::marks.filter (·.1≠e.1)) rest
    else if defaultLimits.zsetMaxListpackEntries ≤ marks.length ||
        defaultLimits.zsetMaxListpackValue < e.1.length then
      marks.all (!·.2) && (e::rest).all (!·.2.isNaN)
    else scoresStay ((e.1,e.2.isNaN)::marks) rest

def markOf (x : ScoredMember) : Bytes×Bool := (x.2,x.1.isNaN)

section NotNumber

theorem addNode_holds {list : SkipList ScoredMember} {xs : List ScoredMember}
    (hholds : list.Holds xs) (scores : Dict Double) (member : Bytes) (newScore : Double)
    (draws : Draws) :
    ∃ list' scores' xs',(addNode list scores member newScore draws).2.1=skipList list' scores' ∧
      list'.Holds xs' ∧ (∀ x∈xs,x.1.isNaN=true → x∈xs') ∧
      (newScore.isNaN=true → (newScore,member)∈xs') := by
  have hinsert : ∀ {list : SkipList ScoredMember} {ys : List ScoredMember},list.Holds ys →
      ∃ ys',(insertNode list (newScore,member) draws).1.Holds ys' ∧
        ys' ~ (newScore,member)::ys := by
    intro list ys hys
    obtain ⟨hpos,hmax⟩ := randomLevel_bounds draws
    obtain ⟨front,back,rfl,hholds',-,-⟩ :=
      hys.insert (isBefore · (newScore,member)) (newScore,member) hpos hmax
    exact ⟨_,hholds',perm_middle⟩
  -- a removal takes out a pair whose score equals the wanted one, hence a number
  have hremove : ∀ old : Double,∃ ys,(removeNode list (old,member)).Holds ys ∧
      ∀ x∈xs,x.1.isNaN=true → x∈ys := by
    intro old
    obtain ⟨front,back,rfl,-,-,hfound,hmissing⟩ :=
      hholds.remove (isBefore · (old,member)) (isPair (old,member))
    cases back with
    | nil =>
      refine ⟨front++[],?_,fun x hx _ => hx⟩
      rw [removeNode,hmissing fun z hz => by cases hz]
      exact hholds
    | cons z back =>
      by_cases hz : isPair (old,member) z=true
      · obtain ⟨list',hremoved,hholds'⟩ := hfound z back rfl hz
        refine ⟨front++back,by rw [removeNode,hremoved]; exact hholds',fun x hx hnan => ?_⟩
        rcases mem_append.mp hx with hx | hx
        · exact mem_append_left _ hx
        · rcases mem_cons.mp hx with rfl | hx
          · rw [isPair,Bool.and_eq_true] at hz
            rw [(Double.eq_spec hz.1).1] at hnan
            cases hnan
          · exact mem_append_right _ hx
      · refine ⟨front++z::back,?_,fun x hx _ => hx⟩
        rw [removeNode,hmissing fun y hy => by cases hy; simpa using hz]
        exact hholds
  rw [addNode]
  rcases scores.find member with ⟨found,scores'⟩
  cases found with
  | none =>
    obtain ⟨ys,hys,hperm⟩ := hinsert hholds
    exact ⟨_,_,ys,rfl,hys,fun x hx _ => hperm.mem_iff.mpr (mem_cons_of_mem _ hx),
      fun _ => hperm.mem_iff.mpr mem_cons_self⟩
  | some old =>
    dsimp only
    split
    · rename_i hsame
      refine ⟨_,_,xs,rfl,hholds,fun x hx _ => hx,fun hnan => ?_⟩
      rw [(Double.eq_spec hsame).2.1] at hnan
      cases hnan
    · obtain ⟨ys,hys,hkeep⟩ := hremove old
      obtain ⟨zs,hzs,hperm⟩ := hinsert hys
      exact ⟨_,_,zs,rfl,hzs,
        fun x hx hnan => hperm.mem_iff.mpr (mem_cons_of_mem _ (hkeep x hx hnan)),
        fun _ => hperm.mem_iff.mpr mem_cons_self⟩

def Spoiled (z : ZSetValue) : Prop :=
  ∃ list scores xs,z=skipList list scores ∧ list.Holds xs ∧ ∃ x∈xs,x.1.isNaN=true

variable [FloatText]

theorem Spoiled.add {z : ZSetValue} (h : z.Spoiled) (member : Bytes) (newScore : Double)
    (draws : Draws) : (z.add member newScore draws).2.1.Spoiled := by
  obtain ⟨list,scores,xs,rfl,hholds,x,hx,hnan⟩ := h
  obtain ⟨list',scores',xs',heq,hholds',hkeep,-⟩ := addNode_holds hholds scores member newScore draws
  exact ⟨list',scores',xs',heq,hholds',x,hkeep x hx hnan,hnan⟩

theorem Spoiled.addAll {es : List (Bytes×Double)} {start : ZSetValue×Draws} (h : start.1.Spoiled) :
    (addAll es start).1.Spoiled := by
  induction es generalizing start with
  | nil => exact h
  | cons e es ih => exact ih (h.add e.1 e.2 start.2)

theorem Spoiled.not_wellFormed {z : ZSetValue} (h : z.Spoiled) : ¬z.WellFormed := by
  obtain ⟨list,scores,xs,rfl,hholds,x,hx,hnan⟩ := h
  intro hwell
  have hnumber := hwell.numbers x.swap (by
    rw [ZSetValue.all,hholds.items]
    exact mem_map_of_mem hx)
  exact absurd hnan (by rw [show x.1.isNaN=false from hnumber]; decide)

end NotNumber

section Rebuilt

open FloatText

variable [FloatText]

theorem wellFormed_addAll_skipList (exact : Exact) {list : SkipList ScoredMember}
    {scores : Dict Double} (hok : (skipList list scores).Ok) (es : List (Bytes×Double))
    (draws : Draws) :
    (addAll es (skipList list scores,draws)).1.WellFormed ↔ es.all (!·.2.isNaN)=true := by
  induction es generalizing list scores draws with
  | nil => exact ⟨fun _ => rfl,fun _ => hok.wellFormed exact⟩
  | cons e es ih =>
    obtain ⟨xs,hholds,-,-⟩ := id hok
    obtain ⟨list',scores',xs',heq,hholds',-,hnew⟩ :=
      addNode_holds hholds scores e.1 e.2 draws
    have hstep : ((skipList list scores).add e.1 e.2 draws).2.1=skipList list' scores' := heq
    have hrun : addAll (e::es) (skipList list scores,draws)=
        addAll es (skipList list' scores',((skipList list scores).add e.1 e.2 draws).2.2) := by
      rw [← hstep]
      rfl
    rw [hrun,all_cons,Bool.and_eq_true,Bool.not_eq_true']
    by_cases hnumber : e.2.isNaN=false
    · have hok' := (hok.add exact hnumber e.1 draws).1
      rw [hstep] at hok'
      rw [ih hok']
      exact ⟨fun h => ⟨hnumber,h⟩,fun h => h.2⟩
    · rw [Bool.not_eq_false] at hnumber
      have hspoiled : (skipList list' scores').Spoiled :=
        ⟨list',scores',xs',rfl,hholds',_,hnew hnumber,hnumber⟩
      refine ⟨fun hwell => absurd hwell (Spoiled.addAll hspoiled).not_wellFormed,fun h => ?_⟩
      rw [h.1] at hnumber
      cases hnumber

/-- A packed sorted set with distinct members, of which those with numbers ascend, and the marks
of its pairs. -/
def Marked (lp : Listpack) (marks : List (Bytes×Bool)) : Prop :=
  ∃ ps,lp.Holds (Listpack.stored ps) ∧ ps.NodupKeys ∧ Listing (numbersIn (ps.map pairOf)) ∧
    marks ~ (ps.map pairOf).map markOf

theorem markOf_printed (exact : Exact) (s : Double) (member : Bytes) :
    markOf (pairOf ⟨member,d2string s⟩)=(member,s.isNaN) := by
  refine Prod.ext rfl ?_
  change (strtod (d2string s)).isNaN=s.isNaN
  cases hs : s.isNaN with
  | true => exact exact.strtod_nan s hs
  | false => exact (Double.eq_spec (exact.strtod_d2string s hs)).1

variable {marks : List (Bytes×Bool)} {lp : Listpack} {ps : List (Dict.Entry Bytes)} {member : Bytes}

theorem marks_members (h : marks ~ (ps.map pairOf).map markOf) : marks.map Prod.fst ~ ps.keys := by
  have hmembers := h.map Prod.fst
  rw [map_map,map_map] at hmembers
  exact hmembers

theorem Marked.insert (exact : Exact) (hholds : lp.Holds (Listpack.stored ps))
    (hkeys : ps.NodupKeys) (hlisting : Listing (numbersIn (ps.map pairOf))) (newScore : Double)
    (hsize : member.length < 2^32) (hnew : member∉ps.keys)
    (hmarks : marks ~ (ps.map pairOf).map markOf) :
    Marked (insertPacked lp member newScore) ((member,newScore.isNaN)::marks) := by
  obtain ⟨ps₁,ps₂,rfl,hholds',hlisting'⟩ :=
    insertPacked_numbers exact hholds hlisting newScore hsize hnew
  refine ⟨_,hholds',?_,hlisting',?_⟩
  · exact (perm_nodupKeys perm_middle).mpr (nodupKeys_cons.mpr ⟨hnew,hkeys⟩)
  · have hmiddle : ps₁++⟨member,d2string newScore⟩::ps₂ ~
        ⟨member,d2string newScore⟩::(ps₁++ps₂) := perm_middle
    have hperm := (hmiddle.map pairOf).map markOf
    rw [map_cons,map_cons,markOf_printed exact] at hperm
    exact (hmarks.cons _).trans hperm.symm

theorem Marked.replace (exact : Exact) (h : Marked lp marks) (hmem : member∈marks.map Prod.fst)
    (newScore : Double) (draws : Draws) :
    ∃ lp',(listPack lp).add member newScore draws=(false,listPack lp',draws) ∧
      Marked lp' ((member,newScore.isNaN)::marks.filter (·.1≠member)) := by
  obtain ⟨ps,hholds,hkeys,hlisting,hmarks⟩ := h
  have hbound : member∈ps.keys := (marks_members hmarks).mem_iff.mp hmem
  rw [ZSetValue.add,hholds.find]
  rcases Listpack.findIn_stored member ps with ⟨before,value,after,rfl,hbefore,hfind⟩ | ⟨hnone,-⟩
  · obtain ⟨lp',herase,hholds'⟩ := hholds.erase_pair
    have hsize : member.length < 2^32 := Listpack.Holds.text_lt hholds (by simp [flatPairs])
    obtain ⟨hnew,hkeys'⟩ := nodupKeys_cons.mp ((perm_nodupKeys perm_middle).mp hkeys)
    have hsub : (before++after).Sublist (before++⟨member,value⟩::after) :=
      (sublist_cons_self _ after).append_left before
    have hlisting' := hlisting.sublist ((hsub.map pairOf).filter (!·.1.isNaN))
    rw [hfind]
    dsimp only
    rw [herase,Option.getD_some]
    refine ⟨_,rfl,Marked.insert exact hholds' hkeys' hlisting' newScore hsize hnew ?_⟩
    -- the marks of the other members are those that pass the filter
    have hfilter := hmarks.filter (·.1≠member)
    have hmiddle : before++⟨member,value⟩::after ~ ⟨member,value⟩::(before++after) :=
      perm_middle
    have hperm := ((hmiddle.map pairOf).map markOf).filter (·.1≠member)
    refine (hfilter.trans hperm).trans (Perm.of_eq ?_)
    rw [map_cons,map_cons,filter_cons_of_neg (by simp [markOf,pairOf]),
      filter_eq_self]
    intro mark hmark
    rw [map_map] at hmark
    obtain ⟨e,he,rfl⟩ := mem_map.mp hmark
    rw [decide_eq_true_eq]
    rintro rfl
    exact hnew (mem_map.mpr ⟨e,he,rfl⟩)
  · exact absurd hbound hnone

theorem marked_empty : Marked .empty [] :=
  ⟨[],Listpack.holds_empty,nodupKeys_nil,listing_nil,Perm.refl _⟩

theorem Marked.ok (h : Marked lp marks) (hnumbers : marks.all (!·.2)=true) : (listPack lp).Ok := by
  obtain ⟨ps,hholds,hkeys,hlisting,hmarks⟩ := h
  refine ⟨ps,hholds,?_⟩
  rwa [numbersIn_eq_self fun x hx => ?_] at hlisting
  have hmark := all_eq_true.mp hnumbers _ (hmarks.mem_iff.mpr (mem_map_of_mem hx))
  simpa [markOf] using hmark

theorem marks_not_number (hmarks : marks ~ (ps.map pairOf).map markOf)
    (h : ¬marks.all (!·.2)=true) :
    ∃ x∈ps.map pairOf,x.1.isNaN=true := by
  rw [Bool.not_eq_true,all_eq_false] at h
  obtain ⟨mark,hmark,hnan⟩ := h
  obtain ⟨x,hx,rfl⟩ := mem_map.mp (hmarks.mem_iff.mp hmark)
  exact ⟨x,hx,by simpa [markOf] using hnan⟩

theorem Marked.missing (h : Marked lp marks) (hmem : member∉marks.map Prod.fst) :
    lp.find member 0 2=none ∧ (listPack lp).size=marks.length := by
  obtain ⟨ps,hholds,-,-,hmarks⟩ := h
  have hnew : member∉ps.keys := fun hbound => hmem ((marks_members hmarks).mem_iff.mpr hbound)
  refine ⟨?_,?_⟩
  · rw [hholds.find]
    rcases Listpack.findIn_stored member ps with ⟨before,value,after,rfl,-,-⟩ | ⟨-,hfind⟩
    · exact absurd (by simp [List.keys]) hnew
    · exact hfind
  · rw [hmarks.length_eq,length_map,length_map,ZSetValue.size,hholds.numElements,
      Listpack.stored_length]
    omega

theorem Marked.add_new (exact : Exact) (h : Marked lp marks) (hmem : member∉marks.map Prod.fst)
    (hroom : ¬(defaultLimits.zsetMaxListpackEntries ≤ marks.length || defaultLimits.zsetMaxListpackValue < member.length)=true)
    (newScore : Double) (draws : Draws) :
    ∃ lp',(listPack lp).add member newScore draws=(true,listPack lp',draws) ∧
      Marked lp' ((member,newScore.isNaN)::marks) := by
  obtain ⟨hfind,hcount⟩ := h.missing hmem
  obtain ⟨ps,hholds,hkeys,hlisting,hmarks⟩ := h
  have hnew : member∉ps.keys := fun hbound => hmem ((marks_members hmarks).mem_iff.mpr hbound)
  rw [← hcount] at hroom
  rw [ZSetValue.add,hfind]
  dsimp only
  rw [if_neg hroom]
  simp only [Bool.or_eq_true,decide_eq_true_eq,not_or,not_lt] at hroom
  have hlimit : defaultLimits.zsetMaxListpackValue=64 := rfl
  exact ⟨_,rfl,Marked.insert exact hholds hkeys hlisting newScore (by omega) hnew hmarks⟩

theorem Marked.add_full (h : Marked lp marks) (hmem : member∉marks.map Prod.fst)
    (hfull : (defaultLimits.zsetMaxListpackEntries ≤ marks.length || defaultLimits.zsetMaxListpackValue < member.length)=true)
    (newScore : Double) (draws : Draws) :
    (listPack lp).add member newScore draws=
      ((listPack lp).convertToSkipList draws).1.add member newScore
        ((listPack lp).convertToSkipList draws).2 := by
  obtain ⟨hfind,hcount⟩ := h.missing hmem
  rw [← hcount] at hfull
  rw [ZSetValue.add,hfind]
  dsimp only
  rw [if_pos hfull]
  rfl

theorem Marked.spoiled (h : Marked lp marks) (hnan : ¬marks.all (!·.2)=true) (draws : Draws) :
    ((listPack lp).convertToSkipList draws).1.Spoiled := by
  obtain ⟨ps,hholds,-,-,hmarks⟩ := h
  obtain ⟨x,hx,hx'⟩ := marks_not_number hmarks hnan
  have hpairs : pairUp lp.toStrings=ps := by
    rw [hholds.toStrings,Listpack.stored,Listpack.map_toString_elementOf,pairUp_flatPairs]
  have hfilled : ∃ xs,(convertLoop ps .empty .init draws).1.1.Holds xs ∧ xs ~ []++ps.map pairOf :=
    convertLoop_perm ps SkipList.holds_empty draws
  obtain ⟨xs,hxs,hperm⟩ := hfilled
  rw [nil_append] at hperm
  rw [← hpairs] at hxs
  exact ⟨_,_,xs,rfl,hxs,x,hperm.mem_iff.mpr hx,hx'⟩

theorem wellFormed_addAll_packed (exact : Exact) (h : Marked lp marks) (es : List (Bytes×Double))
    (draws : Draws) :
    (addAll es (listPack lp,draws)).1.WellFormed ↔ scoresStay marks es=true := by
  induction es generalizing lp marks draws with
  | nil =>
    rw [scoresStay]
    refine ⟨fun hwell => ?_,fun hnumbers => (h.ok hnumbers).wellFormed exact⟩
    by_contra hnan
    obtain ⟨ps,hholds,-,-,hmarks⟩ := h
    obtain ⟨x,hx,hx'⟩ := marks_not_number hmarks hnan
    rw [← listing_listPack hholds] at hx
    obtain ⟨e,he,rfl⟩ := mem_map.mp hx
    exact absurd hx' (by rw [show e.swap.1.isNaN=false from hwell.numbers e he]; decide)
  | cons e es ih =>
    rw [scoresStay]
    by_cases hmem : e.1∈marks.map Prod.fst
    · obtain ⟨lp',hadd,hmarked⟩ := h.replace exact hmem e.2 draws
      rw [if_pos (contains_iff_mem.mpr hmem),← ih hmarked draws,addAll,foldl_cons]
      dsimp only
      rw [hadd]
      rfl
    · rw [if_neg (fun hc => hmem (contains_iff_mem.mp hc))]
      by_cases hfull : (defaultLimits.zsetMaxListpackEntries ≤ marks.length ||
          defaultLimits.zsetMaxListpackValue < e.1.length)=true
      · have hrun : addAll (e::es) (listPack lp,draws)=
            addAll (e::es) ((listPack lp).convertToSkipList draws) := by
          rw [addAll,foldl_cons]
          dsimp only
          rw [h.add_full hmem hfull]
          rfl
        rw [if_pos hfull,hrun,Bool.and_eq_true]
        by_cases hnumbers : marks.all (!·.2)=true
        · obtain ⟨ps,hholds,hlisting⟩ := h.ok hnumbers
          have hok := (convertToSkipList_ok hholds hlisting draws).1
          exact (wellFormed_addAll_skipList exact hok (e::es) _).trans
            ⟨fun hall => ⟨hnumbers,hall⟩,fun hall => hall.2⟩
        · exact ⟨fun hwell => absurd hwell (Spoiled.addAll (h.spoiled hnumbers draws)).not_wellFormed,
            fun hall => absurd hall.1 hnumbers⟩
      · obtain ⟨lp',hadd,hmarked⟩ := h.add_new exact hmem hfull e.2 draws
        rw [if_neg hfull,← ih hmarked draws,addAll,foldl_cons]
        dsimp only
        rw [hadd]
        rfl

end Rebuilt

end ZSetValue

end Mnemos

/-! ## Restored values -/

open List

namespace Mnemos

def Value.WellFormed [FloatText] (v : Value) : Prop :=
  match v.data with
  | .hash h => h.WellFormed
  | .set s => s.WellFormed
  | .zset z => z.WellFormed
  | _ => True

namespace Rdb

inductive Encoded where
  | rebuilt
  | packedSet (lp : Listpack)
  | packedHash (lp : Listpack)
  | fields (es : List (Dict.Entry Bytes))
  | packedZSet (lp : Listpack)
  | pairs (es : List (Bytes×Double))

def readField : Reader (Dict.Entry Bytes) := do
  let field ← readString
  let value ← readString
  pure ⟨field,value⟩

def readScored (readScore : Reader Double) : Reader (Bytes×Double) := do
  let member ← readString
  let score ← readScore
  pure (member,score)

def readCounted {A : Type} (p : Reader A) : Reader (List A) := do
  let len ← readLen
  Reader.collect p len

def DistinctKeys (qs : List (Σ _ : Element,Element)) : Prop := (qs.map fun q => q.1.toString).Nodup

theorem holds_pairs {lp : Listpack} {es : List Element} (h : lp.Holds es)
    (heven : ¬lp.numElements%2≠0) : lp.Holds (flatPairs (pairUp lp.elements)) := by
  rw [h.numElements,not_not] at heven
  rw [h.elements,flatPairs_pairUp heven]
  exact h

theorem readListpack_ok {bytes rest : Bytes} {lp : Listpack}
    (h : readListpack bytes=.ok (lp,rest)) : ∃ es,lp.Holds es := by
  obtain ⟨blob,mid,-,hrequire⟩ := Reader.bind_ok h
  cases hparse : Listpack.fromBytes blob with
  | none =>
    rw [hparse] at hrequire
    cases hrequire
  | some found =>
    rw [hparse] at hrequire
    obtain ⟨rfl,-⟩ := Reader.pure_ok hrequire
    exact (Listpack.holds_of_fromBytes hparse).2

theorem withDraws_ok {p : Reader Value} {draws : Draws} {bytes rest : Bytes} {r : Value×Draws}
    (h : withDraws p draws bytes=.ok (r,rest)) : p bytes=.ok (r.1,rest) := by
  obtain ⟨v,mid,hp,hpure⟩ := Reader.bind_ok h
  obtain ⟨rfl,rfl⟩ := Reader.pure_ok hpure
  exact hp

theorem readCounted_ok {A C : Type} {p : Reader C} {step : A → C → A} {q : A → Reader A}
    (hq : ∀ a bytes b rest,q a bytes=.ok (b,rest) → ∃ x,p bytes=.ok (x,rest) ∧ b=step a x)
    {n : ℕ} {a b : A} {bytes mid rest : Bytes} (hlen : readLen bytes=.ok (n,mid))
    (h : Reader.times q n a mid=.ok (b,rest)) :
    ∃ xs,readCounted p bytes=.ok (xs,rest) ∧ b=xs.foldl step a := by
  obtain ⟨xs,hxs,hb⟩ := Reader.times_ok hq h
  exact ⟨xs,by rw [readCounted,Reader.bind_eq hlen]; exact hxs,hb⟩

theorem loadField_ok {h h' : HashValue} {bytes rest : Bytes}
    (hload : loadField h bytes=.ok (h',rest)) :
    ∃ e,readField bytes=.ok (e,rest) ∧ h'=(h.set e.1 e.2).2 := by
  obtain ⟨field,mid,hfield,hload⟩ := Reader.bind_ok hload
  obtain ⟨value,mid',hvalue,hload⟩ := Reader.bind_ok hload
  obtain ⟨rfl,rfl⟩ := Reader.pure_ok hload
  refine ⟨⟨field,value⟩,?_,rfl⟩
  rw [readField,Reader.bind_eq hfield,Reader.bind_eq hvalue]
  rfl

section Text

variable [FloatText]

def readEncoded (type : UInt8) : Reader Encoded :=
  if type=20 then do
    let lp ← readListpack
    pure (.packedSet lp)
  else if type=16 then do
    let lp ← readListpack
    pure (.packedHash lp)
  else if type=4 then do
    let es ← readCounted readField
    pure (.fields es)
  else if type=17 then do
    let lp ← readListpack
    pure (.packedZSet lp)
  else if type=3 then do
    let es ← readCounted (readScored loadTextDouble)
    pure (.pairs es)
  else if type=5 then do
    let es ← readCounted (readScored loadBinaryDouble)
    pure (.pairs es)
  else pure .rebuilt

def encodedIn (payload : Bytes) : Option Encoded :=
  match payload.take (payload.length-10) with
  | [] => none
  | type::body =>
    match readEncoded type body with
    | .ok (e,_) => some e
    | .error _ => none

/-- Listed contents that make a well formed value: a packed form that is kept has distinct keys in
stored form, and in sorted sets the pairs ascend and the scores are numbers. -/
def Encoded.Sound : Encoded → Prop
  | rebuilt => True
  | packedSet lp => defaultLimits.setMaxListpackEntries < lp.numElements ∨
      lp.toStrings.Nodup ∧ ∀ e∈lp.elements,Minimal e
  | packedHash lp => (defaultLimits.hashMaxListpackEntries < lp.numElements/2 ∨
      defaultLimits.hashMaxListpackValue < HashValue.longestText lp.elements) ∨
      DistinctKeys (pairUp lp.elements) ∧ ∀ q∈pairUp lp.elements,Minimal q.1
  | fields _ => True
  | packedZSet lp => DistinctKeys (pairUp lp.elements) ∧
      (∀ q∈pairUp lp.elements,(ZSetValue.elementScore q.2).isNaN=false) ∧
      ((defaultLimits.zsetMaxListpackEntries < lp.numElements/2 ∨
        defaultLimits.zsetMaxListpackValue < ZSetValue.longestMember lp.elements) ∨
      (∀ q∈pairUp lp.elements,Minimal q.1) ∧
        (pairUp lp.elements).Pairwise fun p q => isBefore (scoredPair p) (scoredPair q)=true)
  | pairs es => ZSetValue.scoresStay [] es=true

/-- Listed fields of which one repeats with a value that a listpack cannot hold. -/
def Encoded.Oversized : Encoded → Prop
  | fields es => HashValue.longRepeat [] es=true
  | _ => False

variable {bytes rest : Bytes} {v : Value} {lp : Listpack} {draws : Draws} {es : List Element}
  {r : Value×Draws}

theorem adoptedSet_iff (h : lp.Holds es) :
    (SetValue.adoptListpack lp).WellFormed ↔ (Encoded.packedSet lp).Sound := by
  rw [SetValue.adoptListpack,Encoded.Sound]
  split
  · rename_i hmany
    have hok : (SetValue.listPack lp).convertToHashTable.Ok := trivial
    exact ⟨fun _ => .inl hmany,fun _ => hok.wellFormed⟩
  · rename_i hfew
    rw [SetValue.wellFormed_listPack h,h.toStrings,h.elements]
    exact ⟨.inr,fun hsound => hsound.resolve_left hfew⟩

theorem adoptedHash_iff (h : lp.Holds es) {value : HashValue}
    (hadopt : HashValue.adoptListpack lp=some value) :
    value.WellFormed ↔ (Encoded.packedHash lp).Sound := by
  rw [HashValue.adoptListpack] at hadopt
  split at hadopt
  · cases hadopt
  rename_i heven
  dsimp only at hadopt
  rw [Encoded.Sound]
  split at hadopt
  · rename_i hlarge
    cases hadopt
    rw [Bool.or_eq_true,decide_eq_true_eq,decide_eq_true_eq] at hlarge
    have hok : (HashValue.listPack lp).convertToHashTable.Ok := trivial
    exact ⟨fun _ => .inl hlarge,fun _ => hok.wellFormed⟩
  · rename_i hsmall
    cases hadopt
    rw [Bool.or_eq_true,decide_eq_true_eq,decide_eq_true_eq] at hsmall
    rw [HashValue.wellFormed_listPack (holds_pairs h heven)]
    exact ⟨.inr,fun hsound => hsound.resolve_left hsmall⟩

theorem convertedZSet_iff (exact : FloatText.Exact) {qs : List (Σ _ : Element,Element)}
    (h : lp.Holds (flatPairs qs)) (draws : Draws) :
    ((ZSetValue.listPack lp).convertToSkipList draws).1.WellFormed ↔
      DistinctKeys qs ∧ ∀ q∈qs,(ZSetValue.elementScore q.2).isNaN=false := by
  have hpairs : (pairUp lp.toStrings).map ZSetValue.pairOf=qs.map scoredPair := by
    rw [h.pairUp_toStrings,map_map]
    refine map_congr_left fun q hq => Prod.ext (h.elementScore_eq exact hq) rfl
  have hmembers : (qs.map scoredPair).map Prod.snd=qs.map fun q => q.1.toString := by
    rw [map_map]
    rfl
  have hfilled : ∃ xs,(ZSetValue.convertLoop (pairUp lp.toStrings) .empty .init draws).1.1.Holds xs ∧
      xs.Perm ([]++(pairUp lp.toStrings).map ZSetValue.pairOf) :=
    ZSetValue.convertLoop_perm _ SkipList.holds_empty draws
  constructor
  · intro hwell
    obtain ⟨xs,hxs,hperm⟩ := hfilled
    rw [nil_append,hpairs] at hperm
    have hall : ((ZSetValue.listPack lp).convertToSkipList draws).1.all=xs.map Prod.swap :=
      congrArg (List.map Prod.swap) hxs.items
    have hnodup := hwell.nodup
    rw [hall,map_map] at hnodup
    have hnodup' : (xs.map Prod.snd).Nodup := hnodup
    rw [(hperm.map Prod.snd).nodup_iff,hmembers] at hnodup'
    refine ⟨hnodup',fun q hq => ?_⟩
    have hmem : scoredPair q∈xs := hperm.mem_iff.mpr (mem_map_of_mem hq)
    exact hwell.numbers (scoredPair q).swap (by rw [hall]; exact mem_map_of_mem hmem)
  · rintro ⟨hnodup,hnumbers⟩
    have hnumbers' : ∀ e∈pairUp lp.toStrings,(ZSetValue.pairOf e).1.isNaN=false := by
      intro e he
      have hmem : ZSetValue.pairOf e∈qs.map scoredPair := by
        rw [← hpairs]
        exact mem_map_of_mem he
      obtain ⟨q,hq,heq⟩ := mem_map.mp hmem
      rw [← heq]
      exact hnumbers q hq
    have hdistinct : (([]++(pairUp lp.toStrings).map ZSetValue.pairOf).map Prod.snd).Nodup := by
      rw [nil_append,hpairs,hmembers]
      exact hnodup
    obtain ⟨xs,hxs,hlisting,-,hscores⟩ := ZSetValue.convertLoop_listing SkipList.holds_empty
      listing_nil hnumbers' hdistinct (fun m => Dict.lookup_init m) draws
    have hok : ((ZSetValue.listPack lp).convertToSkipList draws).1.Ok :=
      ⟨xs,hxs,hlisting,hscores⟩
    exact hok.wellFormed exact

theorem adoptedZSet_iff (exact : FloatText.Exact) (h : lp.Holds es) {r : ZSetValue×Draws}
    (hadopt : ZSetValue.adoptListpack lp draws=some r) :
    r.1.WellFormed ↔ (Encoded.packedZSet lp).Sound := by
  rw [ZSetValue.adoptListpack] at hadopt
  split at hadopt
  · cases hadopt
  rename_i heven
  have hpairs := holds_pairs h heven
  rw [Encoded.Sound]
  split at hadopt
  · rename_i hlarge
    cases hadopt
    rw [Bool.or_eq_true,decide_eq_true_eq,decide_eq_true_eq] at hlarge
    rw [convertedZSet_iff exact hpairs]
    exact ⟨fun hsound => ⟨hsound.1,hsound.2,.inl hlarge⟩,fun hsound => ⟨hsound.1,hsound.2.1⟩⟩
  · rename_i hsmall
    cases hadopt
    rw [Bool.or_eq_true,decide_eq_true_eq,decide_eq_true_eq] at hsmall
    rw [ZSetValue.wellFormed_listPack exact hpairs]
    constructor
    · rintro ⟨hnodup,hminimal,hnumbers,hascending⟩
      exact ⟨hnodup,hnumbers,.inr ⟨hminimal,hascending⟩⟩
    · rintro ⟨hnodup,hnumbers,hkept⟩
      obtain ⟨hminimal,hascending⟩ := hkept.resolve_left hsmall
      exact ⟨hnodup,hminimal,hnumbers,hascending⟩

theorem loadPair_ok {readScore : Reader Double} {z z' : ZSetValue×Draws}
    (hload : loadPair readScore z bytes=.ok (z',rest)) :
    ∃ e,readScored readScore bytes=.ok (e,rest) ∧ z'=(z.1.add e.1 e.2 z.2).2 := by
  obtain ⟨member,mid,hmember,hload⟩ := Reader.bind_ok hload
  obtain ⟨score,mid',hscore,hload⟩ := Reader.bind_ok hload
  obtain ⟨rfl,rfl⟩ := Reader.pure_ok hload
  refine ⟨(member,score),?_,rfl⟩
  rw [readScored,Reader.bind_eq hmember,Reader.bind_eq hscore]
  rfl

theorem loadStringBody_ok (h : loadStringBody bytes=.ok (v,rest)) : v.WellFormed := by
  obtain ⟨s,mid,-,hpure⟩ := Reader.bind_ok h
  obtain ⟨rfl,-⟩ := Reader.pure_ok hpure
  rw [Value.makeString]
  split
  · exact trivial
  · split <;> exact trivial

theorem loadListBody_ok (h : loadListBody bytes=.ok (v,rest)) : v.WellFormed := by
  obtain ⟨nodes,mid,-,h⟩ := Reader.bind_ok h
  obtain ⟨-,h⟩ := Reader.check_ok h
  obtain ⟨_,mid,-,h⟩ := Reader.bind_ok h
  obtain ⟨packs,mid,-,h⟩ := Reader.bind_ok h
  obtain ⟨l,-,h⟩ := Reader.require_ok h
  obtain ⟨rfl,-⟩ := Reader.pure_ok h
  exact trivial

theorem loadIntSetBody_ok (h : loadIntSetBody bytes=.ok (v,rest)) : v.WellFormed := by
  obtain ⟨blob,mid,-,h⟩ := Reader.bind_ok h
  obtain ⟨ints,hints,h⟩ := Reader.require_ok h
  obtain ⟨-,h⟩ := Reader.check_ok h
  obtain ⟨rfl,-⟩ := Reader.pure_ok h
  have hok := IntSet.ok_of_fromBytes hints
  exact (SetValue.adoptIntSet_ok hok).1.wellFormed

theorem loadSetBody_ok (h : loadSetBody bytes=.ok (v,rest)) : v.WellFormed := by
  obtain ⟨len,mid,-,h⟩ := Reader.bind_ok h
  obtain ⟨-,h⟩ := Reader.check_ok h
  obtain ⟨s,mid',hs,h⟩ := Reader.bind_ok h
  obtain ⟨-,h⟩ := Reader.check_ok h
  obtain ⟨rfl,-⟩ := Reader.pure_ok h
  have hmember : ∀ (a : SetValue) bytes b rest,loadMember a bytes=.ok (b,rest) →
      ∃ m,readString bytes=.ok (m,rest) ∧ b=(a.add m).2 := by
    intro a bytes b rest hone
    obtain ⟨m,mid,hm,hpure⟩ := Reader.bind_ok hone
    obtain ⟨rfl,rfl⟩ := Reader.pure_ok hpure
    exact ⟨m,hm,rfl⟩
  obtain ⟨ms,-,rfl⟩ := Reader.times_ok hmember hs
  exact (SetValue.empty_ok.addAll ms).1.wellFormed

theorem loadSetListpackBody_ok (h : loadSetListpackBody bytes=.ok (v,rest)) :
    ∃ lp,readListpack bytes=.ok (lp,rest) ∧ (v.WellFormed ↔ (Encoded.packedSet lp).Sound) := by
  obtain ⟨lp,mid,hlp,h⟩ := Reader.bind_ok h
  obtain ⟨-,h⟩ := Reader.check_ok h
  obtain ⟨rfl,rfl⟩ := Reader.pure_ok h
  obtain ⟨es,hholds⟩ := readListpack_ok hlp
  exact ⟨lp,hlp,adoptedSet_iff hholds⟩

theorem loadHashListpackBody_ok (h : loadHashListpackBody bytes=.ok (v,rest)) :
    ∃ lp,readListpack bytes=.ok (lp,rest) ∧ (v.WellFormed ↔ (Encoded.packedHash lp).Sound) := by
  obtain ⟨lp,mid,hlp,h⟩ := Reader.bind_ok h
  obtain ⟨-,h⟩ := Reader.check_ok h
  obtain ⟨hash,hadopt,h⟩ := Reader.require_ok h
  obtain ⟨rfl,rfl⟩ := Reader.pure_ok h
  obtain ⟨es,hholds⟩ := readListpack_ok hlp
  exact ⟨lp,hlp,adoptedHash_iff hholds hadopt⟩

theorem loadHashBody_ok (h : loadHashBody bytes=.ok (v,rest)) :
    ∃ es,readCounted readField bytes=.ok (es,rest) ∧
      (HashValue.longRepeat [] es=false → v.WellFormed) := by
  obtain ⟨len,mid,hlen,h⟩ := Reader.bind_ok h
  obtain ⟨-,h⟩ := Reader.check_ok h
  obtain ⟨hash,mid',hhash,h⟩ := Reader.bind_ok h
  obtain ⟨-,h⟩ := Reader.check_ok h
  obtain ⟨rfl,rfl⟩ := Reader.pure_ok h
  obtain ⟨es,hes,rfl⟩ := readCounted_ok (q := loadField)
    (fun _ _ _ _ hone => loadField_ok hone) hlen hhash
  exact ⟨es,hes,fun hshort => (HashValue.foldl_set_empty hshort).wellFormed⟩

theorem loadZSetListpackBody_ok (exact : FloatText.Exact)
    (h : loadZSetListpackBody draws bytes=.ok (r,rest)) :
    ∃ lp,readListpack bytes=.ok (lp,rest) ∧ (r.1.WellFormed ↔ (Encoded.packedZSet lp).Sound) := by
  obtain ⟨lp,mid,hlp,h⟩ := Reader.bind_ok h
  obtain ⟨-,h⟩ := Reader.check_ok h
  obtain ⟨z,hadopt,h⟩ := Reader.require_ok h
  obtain ⟨rfl,rfl⟩ := Reader.pure_ok h
  obtain ⟨es,hholds⟩ := readListpack_ok hlp
  exact ⟨lp,hlp,adoptedZSet_iff exact hholds hadopt⟩

theorem loadZSetBody_ok (exact : FloatText.Exact) {readScore : Reader Double}
    (h : loadZSetBody readScore draws bytes=.ok (r,rest)) :
    ∃ es,readCounted (readScored readScore) bytes=.ok (es,rest) ∧
      (r.1.WellFormed ↔ (Encoded.pairs es).Sound) := by
  obtain ⟨len,mid,hlen,h⟩ := Reader.bind_ok h
  obtain ⟨-,h⟩ := Reader.check_ok h
  obtain ⟨z,mid',hz,h⟩ := Reader.bind_ok h
  obtain ⟨-,h⟩ := Reader.check_ok h
  obtain ⟨rfl,rfl⟩ := Reader.pure_ok h
  obtain ⟨es,hes,rfl⟩ := readCounted_ok (q := loadPair readScore)
    (fun _ _ _ _ hone => loadPair_ok hone) hlen hz
  exact ⟨es,hes,ZSetValue.wellFormed_addAll_packed exact ZSetValue.marked_empty es draws⟩

theorem loadObjectBody_ok (exact : FloatText.Exact) {type : UInt8}
    (h : loadObjectBody type draws bytes=.ok (r,rest)) :
    ∃ e rest',readEncoded type bytes=.ok (e,rest') ∧
      (¬e.Oversized → (r.1.WellFormed ↔ e.Sound)) := by
  have hrebuilt : r.1.WellFormed → readEncoded type bytes=.ok (.rebuilt,bytes) →
      ∃ e rest',readEncoded type bytes=.ok (e,rest') ∧
        (¬e.Oversized → (r.1.WellFormed ↔ e.Sound)) :=
    fun hwell hread => ⟨_,_,hread,fun _ => ⟨fun _ => trivial,fun _ => hwell⟩⟩
  rw [loadObjectBody] at h
  by_cases hstring : type=0
  · rw [if_pos hstring] at h
    subst hstring
    exact hrebuilt (loadStringBody_ok (withDraws_ok h)) rfl
  rw [if_neg hstring] at h
  by_cases hlist : type=18
  · rw [if_pos hlist] at h
    subst hlist
    exact hrebuilt (loadListBody_ok (withDraws_ok h)) rfl
  rw [if_neg hlist] at h
  by_cases hints : type=11
  · rw [if_pos hints] at h
    subst hints
    exact hrebuilt (loadIntSetBody_ok (withDraws_ok h)) rfl
  rw [if_neg hints] at h
  by_cases hpackedSet : type=20
  · rw [if_pos hpackedSet] at h
    subst hpackedSet
    obtain ⟨lp,hlp,hiff⟩ := loadSetListpackBody_ok (withDraws_ok h)
    exact ⟨.packedSet lp,rest,by rw [readEncoded,if_pos rfl,Reader.bind_eq hlp]; rfl,fun _ => hiff⟩
  rw [if_neg hpackedSet] at h
  by_cases hset : type=2
  · rw [if_pos hset] at h
    subst hset
    exact hrebuilt (loadSetBody_ok (withDraws_ok h)) rfl
  rw [if_neg hset] at h
  by_cases hpackedHash : type=16
  · rw [if_pos hpackedHash] at h
    subst hpackedHash
    obtain ⟨lp,hlp,hiff⟩ := loadHashListpackBody_ok (withDraws_ok h)
    refine ⟨.packedHash lp,rest,?_,fun _ => hiff⟩
    rw [readEncoded,if_neg (by decide),if_pos rfl,Reader.bind_eq hlp]
    rfl
  rw [if_neg hpackedHash] at h
  by_cases hhash : type=4
  · rw [if_pos hhash] at h
    subst hhash
    obtain ⟨es,hes,hwell⟩ := loadHashBody_ok (withDraws_ok h)
    refine ⟨.fields es,rest,?_,fun hsize => ⟨fun _ => trivial,fun _ => hwell ?_⟩⟩
    · rw [readEncoded,if_neg (by decide),if_neg (by decide),if_pos rfl,Reader.bind_eq hes]
      rfl
    · exact Bool.not_eq_true _ ▸ hsize
  rw [if_neg hhash] at h
  by_cases hpackedZSet : type=17
  · rw [if_pos hpackedZSet] at h
    subst hpackedZSet
    obtain ⟨lp,hlp,hiff⟩ := loadZSetListpackBody_ok exact h
    refine ⟨.packedZSet lp,rest,?_,fun _ => hiff⟩
    rw [readEncoded,if_neg (by decide),if_neg (by decide),if_neg (by decide),if_pos rfl,
      Reader.bind_eq hlp]
    rfl
  rw [if_neg hpackedZSet] at h
  by_cases htext : type=3
  · rw [if_pos htext] at h
    subst htext
    obtain ⟨es,hes,hiff⟩ := loadZSetBody_ok exact h
    refine ⟨.pairs es,rest,?_,fun _ => hiff⟩
    rw [readEncoded,if_neg (by decide),if_neg (by decide),if_neg (by decide),if_neg (by decide),
      if_pos rfl,Reader.bind_eq hes]
    rfl
  rw [if_neg htext] at h
  by_cases hbinary : type=5
  · rw [if_pos hbinary] at h
    subst hbinary
    obtain ⟨es,hes,hiff⟩ := loadZSetBody_ok exact h
    refine ⟨.pairs es,rest,?_,fun _ => hiff⟩
    rw [readEncoded,if_neg (by decide),if_neg (by decide),if_neg (by decide),if_neg (by decide),
      if_neg (by decide),if_pos rfl,Reader.bind_eq hes]
    rfl
  rw [if_neg hbinary] at h
  cases h

/-- The payload lists contents that make a well formed value. -/
def PayloadSound (payload : Bytes) : Prop := ∃ e,encodedIn payload=some e ∧ e.Sound

/-- The payload repeats a field with a value that a listpack cannot hold. -/
def PayloadOversized (payload : Bytes) : Prop := ∃ e,encodedIn payload=some e ∧ e.Oversized

/-- A restored value is what the rest of the code relies on exactly when the payload lists sound
contents. -/
theorem restored_wellFormed_iff (exact : FloatText.Exact) {payload : Bytes} {draws draws' : Draws}
    {v : Value} (hload : loadPayload payload draws=.ok (v,draws'))
    (hsize : ¬PayloadOversized payload) : v.WellFormed ↔ PayloadSound payload := by
  rw [loadPayload] at hload
  split at hload
  · cases hload
  dsimp only at hload
  split at hload
  · cases hload
  rename_i result rest hbody
  obtain ⟨type,mid,htype,hobject⟩ := Reader.bind_ok hbody
  split at hload
  · cases hload
    obtain ⟨e,rest',hread,hiff⟩ := loadObjectBody_ok exact hobject
    have hencoded : encodedIn payload=some e := by
      rw [encodedIn]
      cases hbytes : payload.take (payload.length-10) with
      | nil =>
        rw [hbytes] at htype
        cases htype
      | cons first body =>
        rw [hbytes] at htype
        cases htype
        dsimp only
        rw [hread]
    rw [hiff fun hover => hsize ⟨e,hencoded,hover⟩]
    refine ⟨fun hsound => ⟨e,hencoded,hsound⟩,?_⟩
    rintro ⟨e',he',hsound⟩
    rw [hencoded] at he'
    cases he'
    exact hsound
  · cases hload

end Text

section Reference

attribute [local instance] DoubleText.reference

def twoMembers : Bytes := [20,13,13,0,0,0,2,0,129,97,2,129,98,2,255,15,0,120,183,210,203,26,144,194,37]

theorem restored_twoMembers :
    ∃ v draws,loadPayload twoMembers (Stream'.const 0)=.ok (v,draws) ∧ v.WellFormed := by
  have hload : loadPayload twoMembers (Stream'.const 0)=
      .ok (.of (.set (.adoptListpack ⟨(twoMembers.drop 2).take 13⟩)),Stream'.const 0) := rfl
  refine ⟨_,_,hload,(restored_wellFormed_iff DoubleText.reference_exact hload ?_).mpr ?_⟩
  · rintro ⟨e,he,hover⟩
    cases he
    exact hover
  · exact ⟨_,rfl,.inr ⟨by decide,by decide⟩⟩

def repeatedMember : Bytes :=
  [20,13,13,0,0,0,2,0,129,97,2,129,97,2,255,15,0,90,208,57,103,134,190,207,122]

/-- It is accepted and the set lists the member twice. -/
theorem restored_repeatedMember :
    payloadFooterOk repeatedMember=true ∧
    ∃ v draws,loadPayload repeatedMember (Stream'.const 0)=.ok (v,draws) ∧ ¬v.WellFormed := by
  refine ⟨by decide +kernel,_,_,rfl,fun hwell => ?_⟩
  exact absurd (SetValue.WellFormed.nodup hwell) (by decide)

end Reference

end Rdb

end Mnemos
