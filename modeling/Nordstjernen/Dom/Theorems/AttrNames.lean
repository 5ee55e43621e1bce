import Mathlib.Data.List.Find
import Nordstjernen.Dom.Theorems.ClassSet

open Nordstjernen.Glib Nordstjernen.Lib

namespace Nordstjernen.Dom

-- Whether two names are the same to `ns_element_find_attr`.
def sameName (svg : Bool) (m n : CString) : Bool :=
  if svg then m == n else strcaseEq m n

namespace Attr

variable {a : Attr} {svg : Bool} {name : CString}

theorem gAsciiStrdown_of_lower (h : nsStrIsAsciiLower name) : gAsciiStrdown name = name := by
  refine (List.map_congr_left fun c hc => ?_).trans (List.map_id' name)
  have hu : c.isUpper = false := by simpa using List.all_eq_true.mp h c hc
  rw [gAsciiTolower, hu]
  rfl

theorem named_eq : named svg name a = sameName svg a.name name := by
  rw [named, sameName]
  split
  case isTrue  => rfl
  case isFalse =>
    split
    case isTrue h =>
      obtain ⟨hn, ha⟩ := Bool.and_eq_true_iff.mp h
      rw [strcaseEq, gAsciiStrdown_of_lower ha, gAsciiStrdown_of_lower hn, Bool.and_eq_right_iff_imp]
      intro he
      rw [beq_iff_eq.mp he, beq_self_eq_true]
    case isFalse => rfl

end Attr

section Put

variable {p q : Attr → Bool} {new a : Attr} {as : List Attr}

-- The attribute that is given the value is the first one of its kind, or the appended one.
theorem find?_putAttr_self (hp : ∀ a v, p { a with value := v } = p a) (hn : p new) :
    (putAttr p new as).find? p = some { (as.find? p).getD new with value := new.value } := by
  induction as
  case nil => exact List.find?_cons_of_pos hn
  case cons a as hi =>
    rw [putAttr]
    split
    case isTrue ha =>
      rw [List.find?_cons_of_pos ha, List.find?_cons_of_pos (by rwa [hp])]
      rfl
    case isFalse ha => rw [List.find?_cons_of_neg ha, List.find?_cons_of_neg ha, hi]

theorem mem_putAttr (h : a ∈ putAttr p new as) : a.name = new.name ∨ ∃ b ∈ as, a.name = b.name := by
  induction as
  case nil => exact .inl (congrArg _ (List.mem_singleton.mp h))
  case cons b as hi =>
    rw [putAttr] at h
    split at h
    case isTrue =>
      obtain rfl | h := List.mem_cons.mp h
      · exact .inr ⟨b, List.mem_cons_self, rfl⟩
      · exact .inr ⟨a, List.mem_cons_of_mem _ h, rfl⟩
    case isFalse =>
      obtain rfl | h := List.mem_cons.mp h
      · exact .inr ⟨a, List.mem_cons_self, rfl⟩
      · obtain he | ⟨c, hc, he⟩ := hi h
        · exact .inl he
        · exact .inr ⟨c, List.mem_cons_of_mem _ hc, he⟩

end Put

namespace Element

variable {el : Element} {e : Event} {name value localName m : CString} {uri : Option CString} {svg b : Bool}
  {p : Attr → Bool} {new : Attr} {as : List Attr}

-- No attribute has the name to the calls that change attributes and does not have it to the getter.
def Agrees (el : Element) (name : CString) : Prop :=
  ∀ a ∈ el.attrs, strcaseEq a.name name → sameName el.svg a.name name

-- There is at most one attribute that the getter could return.
def HoldsOne (el : Element) (name : CString) : Prop :=
  (el.attrs.filter (Attr.named el.svg name)).length ≤ 1

theorem strcaseEq_of_sameName {n : CString} (h : sameName svg m n) : strcaseEq m n := by
  rw [sameName] at h
  split at h
  case isTrue  => rw [beq_iff_eq.mp h]; exact strcaseEq_refl n
  case isFalse => exact h

theorem agrees_of_not_svg (h : el.svg = false) : el.Agrees name := by
  intro a _ ha
  rw [sameName, h]
  exact ha

@[simp]
theorem svg_dropClassSet : (el.dropClassSet b).svg = el.svg := by
  rw [dropClassSet]
  split <;> rfl

theorem getAttr_congr (h : (as.find? (Attr.named el.svg m)).map (·.value) =
    (el.attrs.find? (Attr.named el.svg m)).map (·.value)) :
    getAttr { el.dropClassSet b with attrs := as } m = el.getAttr m := by
  have hm := congrArg (Option.map gStrndup) h
  simp only [Option.map_map] at hm
  simp only [getAttr, findAttr, svg_dropClassSet]
  exact hm

-- Only the attribute that is given a value changes.
theorem getAttr_putAttr_of_ne (hn : p new) (hp : ∀ a v, p { a with value := v } = p a)
    (h : ∀ a ∈ (putAttr p new el.attrs).find? p, sameName el.svg a.name m = false) :
    getAttr { el.dropClassSet b with attrs := putAttr p new el.attrs } m = el.getAttr m := by
  have ht := h _ (find?_putAttr_self hp hn)
  rw [← Attr.named_eq] at ht
  refine getAttr_congr (find?_putAttr (fun a v => rfl) (hits_of_find? (fun a ha => ?_) fun ha => ?_))
  · rwa [ha] at ht
  · rwa [ha] at ht

theorem getAttr_eraseP_of_ne (h : ∀ a ∈ el.attrs.find? p, sameName el.svg a.name m = false) :
    getAttr { el.dropClassSet b with attrs := el.attrs.eraseP p } m = el.getAttr m :=
  have hn : ∀ a ∈ el.attrs.find? p, Attr.named el.svg m a = false := fun a ha => Attr.named_eq.trans (h a ha)
  getAttr_congr (congrArg _ (find?_eraseP (hits_of_find? hn fun _ => rfl)))

@[simp]
theorem sameName_self : sameName svg m m := by
  rw [sameName]
  split
  case isTrue  => exact beq_self_eq_true m
  case isFalse => exact strcaseEq_refl m

theorem sameName_trans {m n k : CString} (h : sameName svg m n) (h' : sameName svg m k) : sameName svg k n := by
  rw [sameName] at h h' ⊢
  split at h
  case isTrue hs =>
    rw [if_pos hs] at h' ⊢
    rw [← beq_iff_eq.mp h, ← beq_iff_eq.mp h', beq_self_eq_true]
  case isFalse hs =>
    rw [if_neg hs] at h' ⊢
    rw [strcaseEq_iff] at h h' ⊢
    rw [← h', h]

-- The attribute that `ns_element_set_attr` gives the value.
theorem find?_setAttr (el : Element) (name value : CString) :
    (putAttr (strcaseEq ·.name name) { name, value } el.attrs).find? (strcaseEq ·.name name) =
      some { (el.attrs.find? (strcaseEq ·.name name)).getD { name, value } with value } :=
  find?_putAttr_self (fun _ _ => rfl) (strcaseEq_refl name)

theorem getAttr_setAttr (h : el.Agrees name) (value : CString) :
    (el.setAttr name value).getAttr name = some (gStrndup value) := by
  have hs : ∀ a ∈ putAttr (strcaseEq ·.name name) { name, value } el.attrs,
      strcaseEq a.name name = Attr.named el.svg name a := by
    intro a ha
    rw [Attr.named_eq, Bool.eq_iff_iff]
    refine ⟨fun hc => ?_, strcaseEq_of_sameName⟩
    obtain hn | ⟨b, hb, hn⟩ := mem_putAttr ha
    · rw [hn]
      exact sameName_self
    · rw [hn] at hc ⊢
      exact h b hb hc
  have hf := find?_setAttr el name value
  rw [List.find?_congr hs] at hf
  simp only [getAttr, findAttr, setAttr, svg_dropClassSet, hf]
  rfl

-- What a plain call changes has a name that is the same as the one it is given.
theorem ne_of_find? (h : el.Agrees name) (hm : sameName el.svg m name = false) :
    ∀ a ∈ el.attrs.find? (strcaseEq ·.name name), sameName el.svg a.name m = false := by
  intro a ha
  have hn := h a (List.mem_of_find?_eq_some ha) (List.find?_some (p := fun a : Attr => strcaseEq a.name name) ha)
  rw [← Bool.not_eq_true] at hm ⊢
  exact fun hc => hm (sameName_trans hn hc)

theorem getAttr_setAttr_of_ne (h : el.Agrees name) (value : CString) (hm : sameName el.svg m name = false) :
    (el.setAttr name value).getAttr m = el.getAttr m := by
  refine getAttr_putAttr_of_ne (strcaseEq_refl name) (fun a v => rfl) fun a ha => ?_
  rw [find?_setAttr] at ha
  obtain rfl := Option.some.inj ha
  cases hf : el.attrs.find? (strcaseEq ·.name name)
  case some t => exact ne_of_find? h hm t hf
  case none =>
    rw [← Bool.not_eq_true] at hm ⊢
    exact fun hc => hm (sameName_trans sameName_self hc)

theorem find?_eraseP_self {q : Attr → Bool} (h : ∀ a ∈ as, p a = q a) (ho : (as.filter q).length ≤ 1) :
    (as.eraseP p).find? q = none := by
  induction as
  case nil => rfl
  case cons a as hi =>
    have ha := h a List.mem_cons_self
    cases hp : p a
    case true =>
      rw [List.filter_cons_of_pos (ha ▸ hp), List.length_cons, Nat.succ_le_succ_iff] at ho
      rw [List.eraseP_cons_of_pos hp, List.find?_eq_none]
      intro b hb hq
      have hb := List.mem_filter.mpr ⟨hb, hq⟩
      rw [List.length_eq_zero_iff.mp (Nat.le_zero.mp ho)] at hb
      cases hb
    case false =>
      have hq : ¬q a := by simp [← ha, hp]
      rw [List.filter_cons_of_neg hq] at ho
      rw [List.eraseP_cons_of_neg (by simp [hp]), List.find?_cons_of_neg hq]
      exact hi (fun b hb => h b (List.mem_cons_of_mem _ hb)) ho

theorem getAttr_removeAttr (h : el.Agrees name) (ho : el.HoldsOne name) :
    (el.removeAttr name).getAttr name = none := by
  have hs : ∀ a ∈ el.attrs, strcaseEq a.name name = Attr.named el.svg name a := fun a ha => by
    rw [Attr.named_eq, Bool.eq_iff_iff]
    exact ⟨h a ha, strcaseEq_of_sameName⟩
  simp only [getAttr, findAttr, removeAttr, svg_dropClassSet, find?_eraseP_self hs ho]
  rfl

theorem getAttr_removeAttr_of_ne (h : el.Agrees name) (hm : sameName el.svg m name = false) :
    (el.removeAttr name).getAttr m = el.getAttr m :=
  getAttr_eraseP_of_ne (ne_of_find? h hm)

theorem find?_eq_of_filter {q : Attr → Bool} {a : Attr} (ha : a ∈ as) (hq : q a) (ho : (as.filter q).length ≤ 1) :
    as.find? q = some a := by
  have hm := List.mem_filter.mpr ⟨ha, hq⟩
  rw [← List.head?_filter]
  match hl : as.filter q with
  | []          => rw [hl] at hm; cases hm
  | [b]         => rw [hl] at hm; rw [List.mem_singleton.mp hm]; rfl
  | _ :: _ :: _ => rw [hl] at ho; simp at ho

theorem matchesNs_self (uri : Option CString) (localName name v : CString) :
    Attr.matchesNs uri localName ⟨name, v, Attr.normalizeNamespace uri, some localName⟩ := by
  have hn : Attr.normalizeNamespace (Attr.normalizeNamespace uri) = Attr.normalizeNamespace uri := by
    rw [Attr.normalizeNamespace, Attr.normalizeNamespace, Option.filter_filter]
    simp
  simp [Attr.matchesNs, hn, Attr.local']

-- The attribute that `ns_element_set_attr_ns` gives the value.
theorem find?_setAttrNs (el : Element) (uri : Option CString) (localName name value : CString) :
    ∃ a, (el.setAttrNs uri localName name value).attrs.find? (Attr.matchesNs uri localName) = some a ∧
      a.value = value :=
  ⟨_, find?_putAttr_self (fun _ _ => rfl) (matchesNs_self uri localName _ value), rfl⟩

-- A namespaced call gives the value to one attribute, and the getter finds it by its name if no other one has it.
theorem setAttrNs_spec (uri : Option CString) (localName name value : CString) :
    ∃ a, (el.setAttrNs uri localName name value).attrs.find? (Attr.matchesNs uri localName) = some a ∧
      a.value = value ∧
      ((el.setAttrNs uri localName name value).HoldsOne a.name →
        (el.setAttrNs uri localName name value).getAttr a.name = some (gStrndup value)) ∧
      ∀ m, sameName el.svg a.name m = false →
        (el.setAttrNs uri localName name value).getAttr m = el.getAttr m := by
  obtain ⟨a, hf, hv⟩ := find?_setAttrNs el uri localName name value
  refine ⟨a, hf, hv, fun ho => ?_, fun m hm => ?_⟩
  · have hq := find?_eq_of_filter (List.mem_of_find?_eq_some hf) (by rw [Attr.named_eq]; exact sameName_self) ho
    rw [getAttr, findAttr, hq, Option.map_some, hv]
  · refine getAttr_putAttr_of_ne (matchesNs_self uri localName _ value) (fun _ _ => rfl) fun b hb => ?_
    exact Option.some.inj (hf.symm.trans hb) ▸ hm

-- The calls with a plain name.
def Event.isPlain : Event → Bool
  | .setAttrNs .. | .removeAttrNs .. => false
  | _                                => true

-- No two names are the same up to case.
def Apart (el : Element) : Prop :=
  (el.attrs.map (·.name)).Pairwise fun m n => strcaseEq m n = false

theorem map_name_putAttr : (putAttr p new as).map (·.name) =
    if as.any p then as.map (·.name) else as.map (·.name) ++ [new.name] := by
  induction as
  case nil => rfl
  case cons a as hi =>
    rw [putAttr, List.any_cons]
    cases hp : p a
    case true => rfl
    case false =>
      rw [if_neg Bool.false_ne_true, List.map_cons, hi, Bool.false_or]
      split <;> rfl

theorem Apart.step (h : el.Apart) (he : e.isPlain) : (el.step e).Apart := by
  cases e
  case setAttr name value =>
    show ((putAttr (strcaseEq ·.name name) { name, value } el.attrs).map (·.name)).Pairwise _
    rw [map_name_putAttr]
    split
    case isTrue => exact h
    case isFalse hn =>
      refine List.pairwise_append.mpr ⟨h, List.pairwise_singleton _ _, fun m hm n hn' => ?_⟩
      obtain ⟨a, ha, rfl⟩ := List.mem_map.mp hm
      rw [List.mem_singleton.mp hn', ← Bool.not_eq_true]
      exact fun hc => hn (List.any_eq_true.mpr ⟨a, ha, hc⟩)
  case removeAttr name => exact h.sublist (List.eraseP_sublist.map _)
  case hasClass c => exact h
  case setAttrNs => cases he
  case removeAttrNs => cases he

theorem Apart.holdsOne (h : el.Apart) (name : CString) : el.HoldsOne name := by
  have hp : (el.attrs.filter (Attr.named el.svg name)).Pairwise fun a b => strcaseEq a.name b.name = false :=
    (List.pairwise_map.mp h).sublist List.filter_sublist
  have hq : ∀ a ∈ el.attrs.filter (Attr.named el.svg name), strcaseEq a.name name := fun a ha =>
    strcaseEq_of_sameName (Attr.named_eq ▸ (List.mem_filter.mp ha).right)
  rw [HoldsOne]
  match el.attrs.filter (Attr.named el.svg name), hp, hq with
  | [],          _,  _  => exact Nat.zero_le 1
  | [_],         _,  _  => exact Nat.le_refl 1
  | a :: b :: l, hp, hq =>
    have hab := List.rel_of_pairwise_cons hp List.mem_cons_self
    have ha := strcaseEq_iff.mp (hq a List.mem_cons_self)
    have hb := strcaseEq_iff.mp (hq b (List.mem_cons_of_mem _ List.mem_cons_self))
    rw [strcaseEq_iff.mpr (ha.trans hb.symm)] at hab
    cases hab

theorem apart_of_run {es : List Event} (h : el.Apart) (hes : ∀ e ∈ es, e.isPlain) : (es.foldl step el).Apart := by
  induction es generalizing el
  case nil => exact h
  case cons e es hi =>
    exact hi (h.step (hes e List.mem_cons_self)) fun e' he => hes e' (List.mem_cons_of_mem _ he)

@[simp]
theorem svg_step : (el.step e).svg = el.svg := by
  cases e <;> simp [step, setAttr, setAttrNs, removeAttr, removeAttrNs, hasClass]

theorem svg_run {es : List Event} : (es.foldl step el).svg = el.svg := by
  induction es generalizing el
  case nil => rfl
  case cons e es hi => rw [List.foldl_cons, hi, svg_step]

-- What the getter finds after any calls, one more call and on an element that has been given no namespaced one.
theorem attr_laws (svg : Bool) (es : List Event) :
    let el := es.foldl step { svg }
    (∀ name, svg = false → el.Agrees name) ∧
    (∀ name, el.Agrees name →
      (∀ value, (el.setAttr name value).getAttr name = some (gStrndup value) ∧
        ∀ m, sameName svg m name = false → (el.setAttr name value).getAttr m = el.getAttr m) ∧
      (el.HoldsOne name → (el.removeAttr name).getAttr name = none) ∧
      ∀ m, sameName svg m name = false → (el.removeAttr name).getAttr m = el.getAttr m) ∧
    (∀ uri localName name value,
      ∃ a, (el.setAttrNs uri localName name value).attrs.find? (Attr.matchesNs uri localName) = some a ∧
        a.value = value ∧
        ((el.setAttrNs uri localName name value).HoldsOne a.name →
          (el.setAttrNs uri localName name value).getAttr a.name = some (gStrndup value)) ∧
        ∀ m, sameName svg a.name m = false →
          (el.setAttrNs uri localName name value).getAttr m = el.getAttr m) ∧
    ((∀ e ∈ es, e.isPlain) → ∀ name, el.HoldsOne name) := by
  intro el
  have hsvg : el.svg = svg := svg_run
  refine ⟨fun name h => agrees_of_not_svg (hsvg.trans h), fun name h => ⟨fun value => ?_, ?_, ?_⟩, ?_,
    fun hes name => ?_⟩
  · exact ⟨getAttr_setAttr h value, fun m hm => getAttr_setAttr_of_ne h value (hsvg ▸ hm)⟩
  · exact getAttr_removeAttr h
  · exact fun m hm => getAttr_removeAttr_of_ne h (hsvg ▸ hm)
  · exact hsvg ▸ setAttrNs_spec
  · have hnil : Apart { svg } := List.Pairwise.nil
    exact (apart_of_run hnil hes).holdsOne name

-- Two attributes in different namespaces with one name, of which the getter returns the first one.
def namespacedTwice : Element :=
  [Event.setAttrNs (some "u".toList) "a".toList "p:a".toList "1".toList,
    .setAttrNs (some "v".toList) "a".toList "p:a".toList "2".toList].foldl step {}

theorem getAttr_namespacedTwice : namespacedTwice.getAttr "p:a".toList = some "1".toList ∧
    ¬namespacedTwice.HoldsOne "p:a".toList ∧
    (namespacedTwice.removeAttr "p:a".toList).getAttr "p:a".toList = some "2".toList := by
  rw [HoldsOne]
  decide

-- Without agreement, a call changes an attribute that the getter does not find by this name.
example : ((setAttr { svg := true } "viewBox".toList "a".toList).setAttr "viewbox".toList "b".toList).getAttr
    "viewbox".toList = none := by
  decide

end Element

-- `ns_attr_name_bloom_bit`
def attrNameBloomBit (name : CString) : BitVec 64 :=
  let h := name.foldl (fun h c => (h ^^^ BitVec.ofNat 32 c.toNat) * 16777619#32) 2166136261#32
  1#64 <<< (h.toNat % 64)

def attrsBloom (attrs : List Attr) : BitVec 64 :=
  attrs.foldl (fun b a => b ||| attrNameBloomBit a.name) 0#64

-- An element with its filter, which is zero where it is not known.
structure BloomElement where
  el        : Element  := {}
  attrBloom : BitVec 64 := 0

namespace BloomElement

-- Every call that may change an attribute forgets the filter.
def change (n : BloomElement) (e : Element.Event) : BloomElement where
  el        := n.el.step e
  attrBloom := if e matches .hasClass _ then n.attrBloom else 0

-- `ns_node_attr_bloom`
def nodeAttrBloom (n : BloomElement) : BitVec 64 × BloomElement :=
  if n.attrBloom ≠ 0 then (n.attrBloom, n)
  else (attrsBloom n.el.attrs, { n with attrBloom := attrsBloom n.el.attrs })

-- A call, or a look at the filter.
def step (n : BloomElement) : Option Element.Event → BloomElement
  | some e => n.change e
  | none   => n.nodeAttrBloom.snd

end BloomElement

section Bits

variable {attrs : List Attr} {a : Attr} {b : BitVec 64}

theorem attrNameBloomBit_ne_zero (name : CString) : attrNameBloomBit name ≠ 0 := by
  intro h
  have hn := congrArg BitVec.toNat h
  have hlt (k : Nat) : 2 ^ (k % 64) < 2 ^ 64 := Nat.pow_lt_pow_right (by decide) (Nat.mod_lt k (by decide))
  have hone : (1#64).toNat = 1 := rfl
  rw [attrNameBloomBit, BitVec.toNat_shiftLeft, Nat.shiftLeft_eq, hone, Nat.one_mul, Nat.mod_eq_of_lt (hlt _)] at hn
  exact (Nat.two_pow_pos _).ne' hn

theorem foldl_bloom : attrs.foldl (fun b a => b ||| attrNameBloomBit a.name) b = b ||| attrsBloom attrs := by
  rw [attrsBloom]
  induction attrs generalizing b
  case nil => simp
  case cons a attrs hi => rw [List.foldl_cons, List.foldl_cons, hi, hi (b := 0#64 ||| _)]; simp [BitVec.or_assoc]

-- The bit of every name is in the filter.
theorem attrNameBloomBit_and (h : a ∈ attrs) :
    attrNameBloomBit a.name &&& attrsBloom attrs = attrNameBloomBit a.name := by
  induction attrs
  case nil => cases h
  case cons c attrs hi =>
    have hc : attrsBloom (c :: attrs) = attrNameBloomBit c.name ||| attrsBloom attrs := by
      rw [attrsBloom, List.foldl_cons, foldl_bloom, BitVec.zero_or]
    have habsorb (x y : BitVec 64) : x ||| x &&& y = x := by
      ext i hi
      simp +contextual
    rw [hc, BitVec.and_or_distrib_left]
    obtain rfl | h := List.mem_cons.mp h
    · rw [BitVec.and_self, habsorb]
    · rw [hi h, BitVec.or_comm, habsorb]

end Bits

namespace BloomElement

variable {n : BloomElement} {o : Option Element.Event} {name : CString}

-- The filter is not known, or it is that of the attributes.
def Inv (n : BloomElement) : Prop :=
  n.attrBloom = 0 ∨ n.attrBloom = attrsBloom n.el.attrs

theorem Inv.nodeAttrBloom (h : n.Inv) : n.nodeAttrBloom.fst = attrsBloom n.el.attrs := by
  rw [BloomElement.nodeAttrBloom]
  split
  case isTrue hn  => exact h.resolve_left hn
  case isFalse    => rfl

theorem Inv.step (h : n.Inv) : (n.step o).Inv := by
  cases o
  case none =>
    show (n.nodeAttrBloom.snd).Inv
    rw [BloomElement.nodeAttrBloom]
    split
    case isTrue  => exact h
    case isFalse => exact .inr rfl
  case some e =>
    cases e
    case hasClass c => exact h
    all_goals exact .inl rfl

theorem inv_of_run {es : List (Option Element.Event)} (h : n.Inv) : (es.foldl step n).Inv := by
  induction es generalizing n
  case nil => exact h
  case cons e es hi => exact hi h.step

-- The filter hides no attribute from a search for the name that it is stored with.
theorem bloom_of_find (es : List (Option Element.Event)) (svg : Bool) :
    let n := es.foldl step { el := { svg } }
    ∀ name, ∀ a ∈ n.el.findAttr name, a.name = name → attrNameBloomBit name &&& n.nodeAttrBloom.fst ≠ 0 := by
  intro n name a ha hn
  have hinv : n.Inv := inv_of_run (.inl rfl)
  rw [hinv.nodeAttrBloom, ← hn, attrNameBloomBit_and (List.mem_of_find?_eq_some ha)]
  exact attrNameBloomBit_ne_zero a.name

theorem bloom_of_find_id :
    let n := [some (.setAttr "id".toList "a".toList), none].foldl step {}
    attrNameBloomBit "id".toList &&& n.nodeAttrBloom.fst ≠ 0 :=
  bloom_of_find [some (.setAttr "id".toList "a".toList), none] false "id".toList ⟨"id".toList, "a".toList, none, none⟩
    (by decide +kernel) rfl

end BloomElement

end Nordstjernen.Dom
