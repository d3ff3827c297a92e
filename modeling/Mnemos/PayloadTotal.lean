import Mnemos.ActRules
import Mnemos.Restored

/-!
# Which payloads make the loader throw

The loader checks what it reads against the bytes that are left before it
copies them.
-/

namespace Mnemos

namespace Reader

def Raises {A : Type} (p : Reader A) (bytes : Bytes) : Prop := p bytes=.error .raised

section Raising

variable {A B C : Type} {bytes : Bytes}

theorem bind_raises {p : Reader A} {f : A → Reader B} :
    (p >>= f).Raises bytes ↔ p.Raises bytes ∨ ∃ a rest,p bytes=.ok (a,rest) ∧ (f a).Raises rest := by
  rw [Raises,Raises]
  cases hp : p bytes with
  | error e =>
    have hbind : (p >>= f) bytes=.error e := by
      simp only [bind,hp]
    rw [hbind]
    simp
  | ok r =>
    rw [bind_eq hp]
    constructor
    · intro h
      exact .inr ⟨r.1,r.2,rfl,h⟩
    · rintro (h|⟨a,rest,h,hf⟩)
      · cases h
      · cases h
        exact hf

theorem pure_raises {a : A} : ¬(pure a : Reader A).Raises bytes := by
  intro h
  cases h

theorem reject_raises : ¬(reject : Reader A).Raises bytes := by
  intro h
  cases h

theorem map_raises {p : Reader A} {f : A → B} :
    (p >>= fun a => pure (f a)).Raises bytes ↔ p.Raises bytes := by
  rw [bind_raises]
  constructor
  · rintro (h|⟨a,rest,-,h⟩)
    · exact h
    · exact absurd h pure_raises
  · exact .inl

theorem check_raises {condition : Bool} {f : Unit → Reader B} :
    (check condition >>= f).Raises bytes ↔ condition=true ∧ (f ()).Raises bytes := by
  rw [bind_raises,check]
  cases condition with
  | false =>
    constructor
    · rintro (h|⟨_,_,h,-⟩)
      · cases h
      · cases h
    · rintro ⟨h,-⟩
      cases h
  | true =>
    constructor
    · rintro (h|⟨_,rest,h,hf⟩)
      · cases h
      · cases h
        exact ⟨rfl,hf⟩
    · rintro ⟨-,h⟩
      exact .inr ⟨(),bytes,rfl,h⟩

theorem require_raises {o : Option A} {f : A → Reader B} :
    (require o >>= f).Raises bytes ↔ ∃ a,o=some a ∧ (f a).Raises bytes := by
  rw [bind_raises]
  cases o with
  | none =>
    constructor
    · rintro (h|⟨_,_,h,-⟩)
      · cases h
      · cases h
    · rintro ⟨_,h,-⟩
      cases h
  | some a =>
    constructor
    · rintro (h|⟨_,rest,h,hf⟩)
      · cases h
      · cases h
        exact ⟨a,rfl,hf⟩
    · rintro ⟨_,h,hf⟩
      cases h
      exact .inr ⟨a,bytes,rfl,hf⟩

theorem allocate_raises {size limit : ℕ} {f : Unit → Reader B} :
    (allocate size limit >>= f).Raises bytes ↔ limit < size ∨ (f ()).Raises bytes := by
  rw [bind_raises,allocate]
  by_cases h : size ≤ limit
  · rw [if_pos h]
    constructor
    · rintro (hp|⟨_,rest,hp,hf⟩)
      · cases hp
      · cases hp
        exact .inr hf
    · rintro (hlt|hf)
      · exact absurd hlt (not_lt.mpr h)
      · exact .inr ⟨(),bytes,rfl,hf⟩
  · rw [if_neg h]
    exact ⟨fun _ => .inl (not_le.mp h),fun _ => .inl rfl⟩

theorem times_raises {p : Reader C} {step : A → C → A} {q : A → Reader A}
    (hq : ∀ a,q a=p >>= fun c => pure (step a c)) {n : ℕ} {a : A} :
    (times q n a).Raises bytes ↔
      ∃ i < n,∃ cs tail,collect p i bytes=.ok (cs,tail) ∧ p.Raises tail := by
  induction n generalizing a bytes with
  | zero => exact ⟨fun h => absurd h pure_raises,fun ⟨i,hi,_⟩ => absurd hi (Nat.not_lt_zero i)⟩
  | succ n ih =>
    rw [times,bind_raises,hq a,map_raises]
    constructor
    · rintro (h|⟨a',mid,hone,hmore⟩)
      · exact ⟨0,Nat.succ_pos n,[],bytes,rfl,h⟩
      · obtain ⟨c,mid',hc,hpure⟩ := Reader.bind_ok hone
        obtain ⟨rfl,rfl⟩ := Reader.pure_ok hpure
        obtain ⟨i,hi,cs,tail,hcs,htail⟩ := ih.mp hmore
        refine ⟨i+1,Nat.succ_lt_succ hi,c::cs,tail,?_,htail⟩
        rw [collect,Reader.bind_eq hc,Reader.bind_eq hcs]
        rfl
    · rintro ⟨i,hi,cs,tail,hcs,htail⟩
      cases i with
      | zero =>
        cases hcs
        exact .inl htail
      | succ i =>
        obtain ⟨c,mid,hc,hrest⟩ := Reader.bind_ok hcs
        obtain ⟨cs',mid',hcs',hpure⟩ := Reader.bind_ok hrest
        obtain ⟨-,rfl⟩ := Reader.pure_ok hpure
        refine .inr ⟨step a c,mid,?_,ih.mpr ⟨i,Nat.lt_of_succ_lt_succ hi,cs',_,hcs',htail⟩⟩
        rw [Reader.bind_eq hc]
        rfl

end Raising

end Reader

namespace Rdb

open Reader

variable {bytes : Bytes}

theorem readByte_raises : ¬readByte.Raises bytes := by
  intro h
  cases bytes with
  | nil => cases h
  | cons b bytes => cases h

theorem readRaw_raises {n : ℕ} : ¬(readRaw n).Raises bytes := by
  intro h
  rw [Raises,readRaw] at h
  split at h
  · cases h
  · cases h

theorem readLenOrTag_raises : ¬readLenOrTag.Raises bytes := by
  rw [readLenOrTag,bind_raises]
  rintro (h|⟨first,rest,-,h⟩)
  · exact readByte_raises h
  · split at h
    · exact pure_raises h
    split at h
    · exact pure_raises h
    split at h
    · exact readByte_raises (map_raises.mp h)
    split at h
    · exact readRaw_raises (map_raises.mp h)
    split at h
    · exact readRaw_raises (map_raises.mp h)
    · exact reject_raises h

theorem readLen_raises : ¬readLen.Raises bytes := by
  rw [readLen,bind_raises]
  rintro (h|⟨r,rest,-,h⟩)
  · exact readLenOrTag_raises h
  · exact pure_raises (check_raises.mp h).2

theorem expand_raises {raw bytes : Bytes} {ulen : ℕ} : ¬(expand raw ulen).Raises bytes := by
  rw [expand]
  split
  · exact reject_raises
  · exact fun h => pure_raises (check_raises.mp h).2

/-- A compressed string whose announced length no string can have. Its compressed bytes are
all there, but they are not looked at. -/
def OversizedLzf (bytes : Bytes) : Prop :=
  ∃ header clen afterClen ulen afterUlen,bytes=0xc3::header ∧
    readLen header=.ok (clen,afterClen) ∧ readLen afterClen=.ok (ulen,afterUlen) ∧
    clen ≤ afterUlen.length ∧ stringMaxSize < ulen

theorem readLzf_raises {header : Bytes} :
    readLzf.Raises header ↔ OversizedLzf (0xc3::header) := by
  rw [readLzf,bind_raises]
  constructor
  · rintro (h|⟨clen,afterClen,hclen,h⟩)
    · exact absurd h readLen_raises
    rcases bind_raises.mp h with h|⟨ulen,afterUlen,hulen,h⟩
    · exact absurd h readLen_raises
    rcases bind_raises.mp h with h|⟨raw,afterRaw,hraw,h⟩
    · exact absurd h readRaw_raises
    rcases allocate_raises.mp h with hlarge|h
    · refine ⟨header,clen,afterClen,ulen,afterUlen,rfl,hclen,hulen,?_,hlarge⟩
      rw [readRaw] at hraw
      split at hraw
      · cases hraw
      · omega
    · exact absurd (check_raises.mp h).2 expand_raises
  · rintro ⟨header',clen,afterClen,ulen,afterUlen,hheader,hclen,hulen,henough,hlarge⟩
    cases hheader
    refine .inr ⟨clen,afterClen,hclen,bind_raises.mpr (.inr ⟨ulen,afterUlen,hulen,?_⟩)⟩
    refine bind_raises.mpr (.inr ⟨afterUlen.take clen,afterUlen.drop clen,?_,?_⟩)
    · rw [readRaw,if_neg (not_lt.mpr henough)]
    · exact allocate_raises.mpr (.inl hlarge)

theorem readLenOrTag_lzf {bytes rest : Bytes} (h : readLenOrTag bytes=.ok ((3,true),rest)) :
    bytes=0xc3::rest := by
  rw [readLenOrTag] at h
  obtain ⟨first,mid,hfirst,h⟩ := Reader.bind_ok h
  have hbytes : bytes=first::mid := by
    cases bytes with
    | nil => cases hfirst
    | cons b tail =>
      cases hfirst
      rfl
  have hno : ∀ {len : ℕ} {rest' : Bytes},
      (Pure.pure (len,false) : Reader (ℕ×Bool)) rest'≠.ok ((3,true),rest) := fun h => by
    cases congrArg Prod.snd (Reader.pure_ok h).1
  by_cases h₀ : first.toNat/64=0
  · rw [if_pos h₀] at h
    exact absurd h hno
  rw [if_neg h₀] at h
  by_cases h₃ : first.toNat/64=3
  · rw [if_pos h₃] at h
    obtain ⟨htag,hrest⟩ := Reader.pure_ok h
    have hlow : 3=first.toNat%64 := congrArg Prod.fst htag
    have hvalue : first=0xc3 := by
      refine UInt8.toNat_inj.mp ?_
      change first.toNat=195
      omega
    rw [hbytes,hvalue,hrest]
  rw [if_neg h₃] at h
  split at h
  · obtain ⟨_,_,_,h⟩ := Reader.bind_ok h
    exact absurd h hno
  split at h
  · obtain ⟨_,_,_,h⟩ := Reader.bind_ok h
    exact absurd h hno
  split at h
  · obtain ⟨_,_,_,h⟩ := Reader.bind_ok h
    exact absurd h hno
  · cases h

/-- **Strings**: only the announced length of a compressed string makes reading throw. -/
theorem readString_raises : readString.Raises bytes ↔ OversizedLzf bytes := by
  rw [readString,bind_raises]
  constructor
  · rintro (h|⟨⟨len,encoded⟩,rest,hlen,h⟩)
    · exact absurd h readLenOrTag_raises
    cases encoded with
    | false => exact absurd h readRaw_raises
    | true =>
      dsimp only at h
      rw [if_neg (show ¬(!true)=true by decide)] at h
      split at h
      · exact absurd (map_raises.mp h) readByte_raises
      · exact absurd (map_raises.mp h) readRaw_raises
      · exact absurd (map_raises.mp h) readRaw_raises
      · rw [readLenOrTag_lzf hlen]
        exact readLzf_raises.mp h
      · exact absurd h reject_raises
  · rintro ⟨header,hrest⟩
    obtain ⟨clen,afterClen,ulen,afterUlen,rfl,h⟩ := hrest
    refine .inr ⟨(3,true),header,rfl,?_⟩
    exact readLzf_raises.mpr ⟨header,clen,afterClen,ulen,afterUlen,rfl,h⟩

theorem readListpack_raises : readListpack.Raises bytes ↔ OversizedLzf bytes := by
  rw [←readString_raises,readListpack,bind_raises]
  constructor
  · rintro (h|⟨blob,rest,-,h⟩)
    · exact h
    · cases hblob : Listpack.fromBytes blob with
      | none =>
        rw [hblob] at h
        exact absurd h reject_raises
      | some lp =>
        rw [hblob] at h
        exact absurd h pure_raises
  · exact .inl

def readNode : Reader Listpack := do
  let container ← readLen
  if container=1 then
    let element ← readString
    pure (Listpack.empty.append element)
  else
    check (container=2)
    let node ← readListpack
    check (node.numElements≠0)
    pure node

theorem loadNode_eq (packs : List Listpack) :
    loadNode packs=readNode >>= fun node => pure (packs++[node]) := by
  rw [loadNode,readNode,bind_assoc]
  congr 1
  funext container
  by_cases hplain : container=1
  · rw [if_pos hplain,if_pos hplain]
    simp only [bind_assoc,pure_bind]
  · rw [if_neg hplain,if_neg hplain]
    simp only [bind_assoc,pure_bind]

def OversizedNode (bytes : Bytes) : Prop :=
  ∃ container rest,readLen bytes=.ok (container,rest) ∧ (container=1 ∨ container=2) ∧
    OversizedLzf rest

theorem readNode_raises : readNode.Raises bytes ↔ OversizedNode bytes := by
  rw [readNode,bind_raises]
  constructor
  · rintro (h|⟨container,rest,hcontainer,h⟩)
    · exact absurd h readLen_raises
    by_cases hplain : container=1
    · rw [if_pos hplain,map_raises,readString_raises] at h
      exact ⟨container,rest,hcontainer,.inl hplain,h⟩
    · rw [if_neg hplain,check_raises,bind_raises,readListpack_raises] at h
      obtain ⟨hpacked,h|⟨node,after,-,h⟩⟩ := h
      · exact ⟨container,rest,hcontainer,.inr (of_decide_eq_true hpacked),h⟩
      · exact absurd (check_raises.mp h).2 pure_raises
  · rintro ⟨container,rest,hcontainer,hkind,h⟩
    refine .inr ⟨container,rest,hcontainer,?_⟩
    by_cases hplain : container=1
    · rw [if_pos hplain,map_raises,readString_raises]
      exact h
    · rw [if_neg hplain,check_raises,bind_raises,readListpack_raises]
      exact ⟨decide_eq_true (hkind.resolve_left hplain),.inl h⟩

def OversizedField (bytes : Bytes) : Prop :=
  OversizedLzf bytes ∨ ∃ field rest,readString bytes=.ok (field,rest) ∧ OversizedLzf rest

theorem readField_raises : readField.Raises bytes ↔ OversizedField bytes := by
  rw [readField,bind_raises,readString_raises,OversizedField]
  simp only [map_raises,readString_raises]

theorem readScored_raises {readScore : Reader Double} (hscore : ∀ bytes,¬readScore.Raises bytes) :
    (readScored readScore).Raises bytes ↔ OversizedLzf bytes := by
  rw [readScored,bind_raises,readString_raises]
  constructor
  · rintro (h|⟨member,rest,-,h⟩)
    · exact h
    · exact absurd (map_raises.mp h) (hscore rest)
  · exact .inl

theorem loadBinaryDouble_raises (bytes : Bytes) : ¬loadBinaryDouble.Raises bytes := by
  rw [loadBinaryDouble,map_raises]
  exact readRaw_raises

theorem loadTextDouble_raises [FloatText] (bytes : Bytes) : ¬loadTextDouble.Raises bytes := by
  rw [loadTextDouble,bind_raises]
  rintro (h|⟨len,rest,-,h⟩)
  · exact readByte_raises h
  split at h
  · exact pure_raises h
  split at h
  · exact pure_raises h
  split at h
  · exact pure_raises h
  · rcases bind_raises.mp h with h|⟨raw,after,-,h⟩
    · exact readRaw_raises h
    · cases hraw : FloatText.stod raw with
      | none =>
        rw [hraw] at h
        exact reject_raises h
      | some x =>
        rw [hraw] at h
        exact pure_raises h

/-- Among the announced items, one is too large, and those before it can be read. -/
def OversizedItem {C : Type} (item : Reader C) (oversized : Bytes → Prop) (n : ℕ)
    (bytes : Bytes) : Prop :=
  ∃ i < n,∃ cs tail,collect item i bytes=.ok (cs,tail) ∧ oversized tail

def OversizedCounted {C : Type} (item : Reader C) (oversized : Bytes → Prop) (bytes : Bytes) :
    Prop :=
  ∃ n rest,readLen bytes=.ok (n,rest) ∧ OversizedItem item oversized n rest

theorem times_raises_iff {A C : Type} {item : Reader C} {oversized : Bytes → Prop}
    {step : A → C → A} {q : A → Reader A} (hq : ∀ a,q a=item >>= fun c => pure (step a c))
    (hitem : ∀ {bytes},item.Raises bytes ↔ oversized bytes) {n : ℕ} {a : A} :
    (times q n a).Raises bytes ↔ OversizedItem item oversized n bytes := by
  rw [times_raises hq]
  simp only [hitem]
  rfl

theorem counted_raises {A C D : Type} {item : Reader C} {oversized : Bytes → Prop}
    {step : A → C → A} {q : A → Reader A} (hq : ∀ a,q a=item >>= fun c => pure (step a c))
    (hitem : ∀ {bytes},item.Raises bytes ↔ oversized bytes) {a : A} {accepted : A → Bool}
    {result : A → D} :
    (do
      let len ← readLen
      check (len≠0)
      let r ← times q len a
      check (accepted r)
      pure (result r) : Reader D).Raises bytes ↔ OversizedCounted item oversized bytes := by
  rw [bind_raises]
  constructor
  · rintro (h|⟨len,rest,hlen,h⟩)
    · exact absurd h readLen_raises
    rw [check_raises,bind_raises] at h
    obtain ⟨-,h|⟨r,after,-,h⟩⟩ := h
    · exact ⟨len,rest,hlen,(times_raises_iff hq hitem).mp h⟩
    · exact absurd (check_raises.mp h).2 pure_raises
  · rintro ⟨len,rest,hlen,h⟩
    refine .inr ⟨len,rest,hlen,check_raises.mpr ⟨?_,bind_raises.mpr (.inl ?_)⟩⟩
    · obtain ⟨i,hi,-⟩ := h
      exact decide_eq_true (Nat.ne_of_gt (Nat.zero_lt_of_lt hi))
    · exact (times_raises_iff hq hitem).mpr h

/-- A list that announces more nodes than a vector can have, or a node that is too large. -/
def OversizedList (bytes : Bytes) : Prop :=
  ∃ nodes rest,readLen bytes=.ok (nodes,rest) ∧
    (vectorMaxSize < nodes ∨ OversizedItem readNode OversizedNode nodes rest)

theorem loadListBody_raises : loadListBody.Raises bytes ↔ OversizedList bytes := by
  rw [loadListBody,bind_raises]
  constructor
  · rintro (h|⟨nodes,rest,hnodes,h⟩)
    · exact absurd h readLen_raises
    rw [check_raises,allocate_raises,bind_raises] at h
    obtain ⟨-,h|h|⟨packs,after,-,h⟩⟩ := h
    · exact ⟨nodes,rest,hnodes,.inl h⟩
    · exact ⟨nodes,rest,hnodes,.inr ((times_raises_iff loadNode_eq readNode_raises).mp h)⟩
    · obtain ⟨l,-,h⟩ := require_raises.mp h
      exact absurd h pure_raises
  · rintro ⟨nodes,rest,hnodes,h⟩
    refine .inr ⟨nodes,rest,hnodes,check_raises.mpr ⟨?_,allocate_raises.mpr ?_⟩⟩
    · refine decide_eq_true fun hzero => ?_
      rcases h with h|⟨i,hi,-⟩
      · rw [hzero] at h
        exact absurd h (Nat.not_lt_zero _)
      · rw [hzero] at hi
        exact absurd hi (Nat.not_lt_zero _)
    · exact h.imp id fun h => bind_raises.mpr
        (.inl ((times_raises_iff loadNode_eq readNode_raises).mpr h))

theorem loadSetBody_raises :
    loadSetBody.Raises bytes ↔ OversizedCounted readString OversizedLzf bytes :=
  counted_raises (fun _ => rfl) readString_raises

theorem loadHashBody_raises :
    loadHashBody.Raises bytes ↔ OversizedCounted readField OversizedField bytes := by
  have hstep : ∀ h,loadField h=readField >>= fun e => pure (h.set e.1 e.2).2 := fun h => by
    rw [loadField,readField]
    simp only [bind_assoc,pure_bind]
  exact counted_raises hstep readField_raises

theorem followed_raises {A B : Type} {p : Reader A} {f : A → Reader B}
    (hp : p.Raises bytes ↔ OversizedLzf bytes) (hf : ∀ a rest,¬(f a).Raises rest) :
    (p >>= f).Raises bytes ↔ OversizedLzf bytes := by
  rw [bind_raises,hp]
  exact or_iff_left fun ⟨a,rest,_,h⟩ => hf a rest h

section Objects

variable [FloatText]

theorem loadZSetBody_raises {readScore : Reader Double}
    (hscore : ∀ bytes,¬readScore.Raises bytes) {draws : Draws} {bytes : Bytes} :
    (loadZSetBody readScore draws).Raises bytes ↔
      OversizedCounted (readScored readScore) OversizedLzf bytes := by
  have hstep : ∀ z,loadPair readScore z=
      readScored readScore >>= fun e => pure (z.1.add e.1 e.2 z.2).2 := fun z => by
    rw [loadPair,readScored]
    simp only [bind_assoc,pure_bind]
  exact counted_raises hstep (readScored_raises hscore)

/-- The body of an object of the given type announces a size that is allocated unchecked and
cannot be. -/
def Unallocatable (type : UInt8) (body : Bytes) : Prop :=
  if type=18 then OversizedList body
  else if type=2 then OversizedCounted readString OversizedLzf body
  else if type=4 then OversizedCounted readField OversizedField body
  else if type=3 then OversizedCounted (readScored loadTextDouble) OversizedLzf body
  else if type=5 then OversizedCounted (readScored loadBinaryDouble) OversizedLzf body
  else type∈[0,11,20,16,17] ∧ OversizedLzf body

/-- **Objects**: what makes loading an object throw. -/
theorem loadObjectBody_raises {type : UInt8} {draws : Draws} {body : Bytes} :
    (loadObjectBody type draws).Raises body ↔ Unallocatable type body := by
  rw [loadObjectBody,Unallocatable]
  by_cases h₀ : type=0
  · subst h₀
    simp only [reduceIte,withDraws,map_raises,loadStringBody,readString_raises]
    simp
  rw [if_neg h₀]
  by_cases h₁₈ : type=18
  · rw [if_pos h₁₈,if_pos h₁₈,withDraws,map_raises,loadListBody_raises]
  rw [if_neg h₁₈,if_neg h₁₈]
  by_cases h₁₁ : type=11
  · subst h₁₁
    have hraises : loadIntSetBody.Raises body ↔ OversizedLzf body := by
      refine followed_raises readString_raises fun blob rest h => ?_
      obtain ⟨ints,-,h⟩ := require_raises.mp h
      exact pure_raises (check_raises.mp h).2
    simp only [reduceIte,withDraws,map_raises,hraises]
    simp
  rw [if_neg h₁₁]
  by_cases h₂₀ : type=20
  · subst h₂₀
    have hraises : loadSetListpackBody.Raises body ↔ OversizedLzf body :=
      followed_raises readListpack_raises fun lp rest h => pure_raises (check_raises.mp h).2
    simp only [reduceIte,withDraws,map_raises,hraises]
    simp
  rw [if_neg h₂₀]
  by_cases h₂ : type=2
  · rw [if_pos h₂,if_pos h₂,withDraws,map_raises,loadSetBody_raises]
  rw [if_neg h₂,if_neg h₂]
  by_cases h₁₆ : type=16
  · subst h₁₆
    have hraises : loadHashListpackBody.Raises body ↔ OversizedLzf body := by
      refine followed_raises readListpack_raises fun lp rest h => ?_
      obtain ⟨value,-,h⟩ := require_raises.mp (check_raises.mp h).2
      exact pure_raises h
    simp only [reduceIte,withDraws,map_raises,hraises]
    simp
  rw [if_neg h₁₆]
  by_cases h₄ : type=4
  · rw [if_pos h₄,if_pos h₄,withDraws,map_raises,loadHashBody_raises]
  rw [if_neg h₄,if_neg h₄]
  by_cases h₁₇ : type=17
  · subst h₁₇
    have hraises : (loadZSetListpackBody draws).Raises body ↔ OversizedLzf body := by
      refine followed_raises readListpack_raises fun lp rest h => ?_
      obtain ⟨value,-,h⟩ := require_raises.mp (check_raises.mp h).2
      exact pure_raises h
    simp only [reduceIte,hraises]
    simp
  rw [if_neg h₁₇]
  by_cases h₃ : type=3
  · rw [if_pos h₃,if_pos h₃,loadZSetBody_raises loadTextDouble_raises]
  rw [if_neg h₃,if_neg h₃]
  by_cases h₅ : type=5
  · rw [if_pos h₅,if_pos h₅,loadZSetBody_raises loadBinaryDouble_raises]
  rw [if_neg h₅,if_neg h₅]
  simp [h₀,h₁₁,h₂₀,h₁₆,h₁₇,reject_raises]

/-- A payload announces a size that is allocated unchecked and cannot be. -/
def PayloadUnallocatable (payload : Bytes) : Prop :=
  11 ≤ payload.length ∧ ∃ type body,payload.take (payload.length-10)=type::body ∧
    Unallocatable type body

/-- **Payloads**: loading one throws exactly if it announces such a size. -/
theorem loadPayload_raises {payload : Bytes} {draws : Draws} :
    loadPayload payload draws=.error .raised ↔ PayloadUnallocatable payload := by
  rw [loadPayload,PayloadUnallocatable]
  by_cases hlength : payload.length < 11
  · rw [if_pos hlength]
    constructor
    · intro h
      cases h
    · exact fun h => absurd h.1 (not_le.mpr hlength)
  rw [if_neg hlength]
  have hbody : (readByte >>= fun type => loadObjectBody type draws).Raises
      (payload.take (payload.length-10)) ↔ ∃ type body,
        payload.take (payload.length-10)=type::body ∧ Unallocatable type body := by
    rw [bind_raises,or_iff_right readByte_raises]
    simp only [loadObjectBody_raises]
    constructor
    · rintro ⟨type,body,hread,h⟩
      refine ⟨type,body,?_,h⟩
      cases hbytes : payload.take (payload.length-10) with
      | nil =>
        rw [hbytes] at hread
        cases hread
      | cons b tail =>
        rw [hbytes] at hread
        cases hread
        rfl
    · rintro ⟨type,body,hbytes,h⟩
      exact ⟨type,body,by rw [hbytes]; rfl,h⟩
  rw [and_iff_right (not_lt.mp hlength),←hbody,Raises]
  dsimp only
  cases (readByte >>= fun type => loadObjectBody type draws) (payload.take (payload.length-10)) with
  | error e => simp
  | ok r =>
    dsimp only
    split <;> simp

end Objects

end Rdb

end Mnemos

/-! ## Restoring any payload -/

namespace Mnemos.Commands

open Rdb

def Answered (r : Response) : Prop := r=.ok ∨ r.isError=true

theorem parseRestore_error {words : List Bytes} {o : Bool×Bool} {e : Response}
    (h : parseRestore words o=.error e) : e.isError=true := by
  fun_induction parseRestore words o <;> grind [Response.syntaxError,Response.notAnInteger,
    Response.invalidIdletime,Response.invalidFreq,Response.err,Response.isError]

theorem storeRestored_ok (key : Bytes) (existed absttl : Bool) (ttl : ℤ) (value : Value)
    (ctx : Context) (s : Keyspace) : (storeRestored key existed absttl ttl value ctx s).1=.ok := by
  unfold storeRestored
  cases existed <;> by_cases h : 0 < ttl <;> simp only [h,if_true,if_false] <;> rfl

/-- What `RESTORE` checks before it looks at the payload: options, the key and the number. -/
def RestoreReaches (argv : List Bytes) (ctx : Context) (s : Keyspace) : Prop :=
  ∃ o ttl,parseRestore (argv.drop 4) (false,false)=.ok o ∧
    ((Cmd.lookupWrite (arg argv 1) ctx s).1.isSome && !o.1)=false ∧
    stringToInt64 (arg argv 2)=some ttl ∧ 0 ≤ ttl

/-- A command that is ended by an exception under a condition and answers otherwise. -/
structure EndsWhen (r : Response) (condition : Prop) : Prop where
  thrown : condition → r=.terminated
  answered : ¬condition → Answered r

theorem EndsWhen.answered_iff {r : Response} {condition : Prop} (h : EndsWhen r condition) :
    Answered r ↔ ¬condition := by
  constructor
  · intro hr hc
    rw [h.thrown hc] at hr
    rcases hr with hr|hr <;> cases hr
  · exact h.answered

theorem EndsWhen.of_not {r : Response} {condition : Prop} (h : ¬condition) (hr : Answered r) :
    EndsWhen r condition := ⟨fun hc => absurd hc h,fun _ => hr⟩

section Answers

variable [Platform]

theorem restorePayload_ends (key : Bytes) {payload : Bytes} (existed absttl : Bool) (ttl : ℤ)
    (ctx : Context) (s : Keyspace) (hfooter : payloadFooterOk payload=true) :
    EndsWhen (restorePayload key payload existed absttl ttl ctx s).1
      (PayloadUnallocatable payload) := by
  have hraises := @loadPayload_raises _ payload s.draws
  have hrun : restorePayload key payload existed absttl ttl ctx s=
      restoreLoaded key existed absttl ttl (loadRestored payload s.draws).1 ctx
        { s with draws := (loadRestored payload s.draws).2 } := by
    unfold restorePayload
    rw [hfooter]
    rfl
  rw [hrun,loadRestored,←hraises]
  cases hload : loadPayload payload s.draws with
  | ok r =>
    refine .of_not ?_ (.inl (storeRestored_ok _ _ _ _ _ _ _))
    intro h
    cases h
  | error e =>
    cases e with
    | rejected =>
      refine .of_not ?_ (.inr rfl)
      intro h
      cases h
    | raised => exact ⟨fun _ => rfl,fun h => absurd rfl h⟩

theorem restore_ends (argv : List Bytes) (ctx : Context) (s : Keyspace)
    (hfooter : payloadFooterOk (arg argv 3)=true) :
    EndsWhen (restore argv ctx s).1
      (RestoreReaches argv ctx s ∧ PayloadUnallocatable (arg argv 3)) := by
  cases hparse : parseRestore (argv.drop 4) (false,false) with
  | error e =>
    have hrun : (restore argv ctx s).1=e := by
      unfold restore
      rw [hparse]
      rfl
    have hreach : ¬RestoreReaches argv ctx s := by
      rintro ⟨o,ttl,ho,-⟩
      rw [hparse] at ho
      cases ho
    rw [hrun]
    exact .of_not (fun h => hreach h.1) (.inr (parseRestore_error hparse))
  | ok o =>
    have hrun : restore argv ctx s=restoreChecked argv o
        (Cmd.lookupWrite (arg argv 1) ctx s).1.isSome ctx
        (Cmd.lookupWrite (arg argv 1) ctx s).2 := by
      unfold restore
      rw [hparse]
      rfl
    rw [hrun]
    unfold restoreChecked
    by_cases hbusy : ((Cmd.lookupWrite (arg argv 1) ctx s).1.isSome && !o.1)=true
    · rw [if_pos hbusy]
      refine .of_not ?_ (.inr rfl)
      rintro ⟨⟨o',ttl,ho,hfree,-⟩,-⟩
      rw [hparse] at ho
      cases ho
      rw [hbusy] at hfree
      cases hfree
    rw [if_neg hbusy]
    cases hnumber : stringToInt64 (arg argv 2) with
    | none =>
      refine .of_not ?_ (.inr rfl)
      rintro ⟨⟨o',ttl,-,-,httl,-⟩,-⟩
      rw [hnumber] at httl
      cases httl
    | some ttl =>
      by_cases hneg : ttl < 0
      · simp only [if_pos hneg]
        refine .of_not ?_ (.inr rfl)
        rintro ⟨⟨o',ttl',-,-,httl,hpos⟩,-⟩
        rw [hnumber] at httl
        cases httl
        omega
      · have hreach : RestoreReaches argv ctx s :=
          ⟨o,ttl,hparse,by simpa using hbusy,hnumber,by omega⟩
        have hends := restorePayload_ends (arg argv 1)
          (Cmd.lookupWrite (arg argv 1) ctx s).1.isSome o.2 ttl ctx
          (Cmd.lookupWrite (arg argv 1) ctx s).2 hfooter
        simp only [if_neg hneg]
        exact ⟨fun h => hends.thrown h.2,fun h => hends.answered fun hp => h ⟨hreach,hp⟩⟩

/-- **Restoring**: loading throws exactly if the payload announces a size that cannot be allocated,
and a `RESTORE` with a valid footer is answered by a server that goes on exactly unless it gets as
far as such a payload. -/
theorem restore_answers_iff {s : Server} {fr : Frame} {spec : CommandSpec} {argv : List Bytes}
    (hspec : spec.handler=.data .restore) (hfooter : payloadFooterOk (arg argv 3)=true)
    (halive : s.alive=true) :
    ((∀ draws,loadPayload (arg argv 3) draws≠.error .raised) ↔
      ¬PayloadUnallocatable (arg argv 3)) ∧
    (Answered (s.callCommand fr spec argv).1 ∧ (s.perform fr spec argv).alive=true ↔
      ¬(RestoreReaches argv (s.context fr) s.unnotified ∧ PayloadUnallocatable (arg argv 3))) := by
  have hends := restore_ends argv (s.context fr) s.unnotified hfooter
  refine ⟨⟨fun h hp => h s.keyspace.draws (loadPayload_raises.mpr hp),
    fun h draws hraised => h (loadPayload_raises.mp hraised)⟩,?_⟩
  rw [Server.callCommand_data_answer hspec,Server.perform_data_alive hspec halive]
  change Answered (restore argv (s.context fr) s.unnotified).1 ∧
    (restore argv (s.context fr) s.unnotified).1≠.terminated ↔ _
  rw [hends.answered_iff,and_iff_left_iff_imp]
  intro h
  rcases hends.answered h with hr|hr <;> rw [ne_eq] <;> intro heq <;> rw [heq] at hr <;> cases hr

end Answers

section Reference

open PlatformReference

attribute [local instance] platform

def hugeList : Bytes := [18,129,255,255,255,255,255,255,255,255,15,0,61,178,172,205,30,156,27,169]

def restoreOf (payload : Bytes) : List Bytes := [ascii "RESTORE",ascii "k",ascii "0",payload]

/-- A payload with a valid footer ends the server. -/
theorem restore_hugeList : payloadFooterOk hugeList=true ∧
    loadPayload hugeList (Stream'.const 0)=.error .raised ∧
    ((server.step (.request 1000 7 (restoreOf hugeList))).alive=false) :=
  ⟨by decide +kernel,rfl,by decide +kernel⟩

def letterDump : Bytes := [0,1,97,15,0,164,122,138,151,33,154,128,76]

def restoreSpec : CommandSpec := ⟨ascii "restore",.data .restore,-4,Flags.kWrite,1,1,1⟩

theorem restore_letterDump : payloadFooterOk letterDump=true ∧
    Answered (server.callCommand ⟨1000,7,2⟩ restoreSpec
      (restoreOf letterDump)).1 ∧
    (server.perform ⟨1000,7,2⟩ restoreSpec (restoreOf letterDump)).alive=true := by
  have hfooter : payloadFooterOk letterDump=true := by decide +kernel
  have h := @restore_answers_iff _ server ⟨1000,7,2⟩ restoreSpec
    (restoreOf letterDump) rfl hfooter rfl
  refine ⟨hfooter,h.2.mpr fun hp => h.1.mp ?_ hp.2⟩
  intro draws hraised
  have hload : loadPayload letterDump draws=.ok (.of (.embStr [97]),draws) := rfl
  cases hload.symm.trans hraised

end Reference

end Mnemos.Commands
