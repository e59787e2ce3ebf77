import TinyDeviceOs.YamlEdit

/-! What the reader can have read: nothing that is longer than its lines, and no empty list. -/
namespace TinyDeviceOs.Yaml

open PyText List

variable {wide : Char → Option ℕ} {z raw text line : Str} {v : Value} {s s' : State} {e : Entry}
  {lines : List Str} {key : Option Str} {n : ℕ}

/-- `z` is neither the value nor directly in it. -/
def Far (z : Str) : Value → Prop
  | .str s => s ≠ z
  | .list xs => ∀ x ∈ xs, x ≠ .str z
  | .map kvs => ∀ e ∈ kvs, e.1 ≠ z
  | _ => True

structure FarState (z : Str) (s : State) : Prop where
  root : ∀ k v, s.root k = some v → Far z v
  stack : ∀ o ∈ s.stack, o.key ≠ some z ∧ Far z o.box.value

def FarEntry (z : Str) : Entry → Prop
  | .item v => Far z v
  | .itemMap k _ => k ≠ z
  | .scalar k v => k ≠ z ∧ Far z v
  | .opens k => k ≠ z

theorem farState_empty : FarState z empty :=
  ⟨fun _ _ h => (by cases h),fun _ h => (by cases h)⟩

variable {k t : Str} {box : Box} {o : Open} {os : List Open}

theorem mem_setKey {kvs : List (Str × Value)} {e : Str × Value}
    (h : e ∈ setKey k v kvs) : e.1 = k ∨ e ∈ kvs := by
  induction kvs with
  | nil =>
    rw [mem_singleton.mp h]
    exact .inl rfl
  | cons e' kvs ih =>
    rw [setKey] at h
    split at h
    · rcases mem_cons.mp h with rfl | h
      · exact .inl rfl
      · exact .inr (mem_cons_of_mem _ h)
    · split at h
      · rcases mem_cons.mp h with rfl | h
        · exact .inl rfl
        · exact .inr h
      · rcases mem_cons.mp h with rfl | h
        · exact .inr mem_cons_self
        · exact (ih h).imp id (mem_cons_of_mem _)

theorem far_put (hbox : Far z box.value) (hkey : key ≠ some z)
    (hv : key = none → Far z v) : Far z (box.put key v).value := by
  cases box with
  | list xs =>
    cases key with
    | none =>
      intro x hx
      rcases mem_append.mp hx with hx | hx
      · exact hbox x hx
      · rw [mem_singleton.mp hx]
        rintro rfl
        exact hv rfl rfl
    | some k => exact hbox
  | map kvs =>
    cases key with
    | none => exact hbox
    | some k =>
      intro e he
      rcases mem_setKey he with hek | he
      · rw [hek]
        exact fun h => hkey (congrArg some h)
      · exact hbox e he

variable {root : Str → Option Value}

theorem FarState.tail (h : FarState z ⟨root,o::os⟩) : FarState z ⟨root,os⟩ :=
  ⟨h.root,(forall_mem_cons.mp h.stack).2⟩

theorem FarState.push (h : FarState z s) (hkey : o.key ≠ some z)
    (hbox : Far z o.box.value) : FarState z { s with stack := o::s.stack } :=
  ⟨h.root,forall_mem_cons.mpr ⟨⟨hkey,hbox⟩,h.stack⟩⟩

theorem FarState.assign_top (h : FarState z ⟨root,o::os⟩) (hkey : key ≠ some z)
    (hv : key = none → Far z v) :
    FarState z (assign ⟨root,o::os⟩ key v) := by
  obtain ⟨hok,hobox⟩ := h.stack o mem_cons_self
  exact h.tail.push hok (far_put hobox hkey hv)

theorem FarState.assign (h : FarState z s) (hkey : key ≠ some z) (hv : Far z v) :
    FarState z (assign s key v) := by
  obtain ⟨root,_ | ⟨o,os⟩⟩ := s
  · cases key with
    | none => exact h
    | some k =>
      refine ⟨fun j w hw => ?_,h.stack⟩
      by_cases hj : j = k
      · subst hj
        have hw : v = w := by simpa [Yaml.assign] using hw
        exact hw ▸ hv
      · exact h.root j w (by simpa [Yaml.assign,hj] using hw)
  · exact h.assign_top hkey fun _ => hv

theorem FarState.close (root : Str → Option Value) (o : Open) (os : List Open)
    (h : FarState z ⟨root,o::os⟩) : FarState z (Yaml.assign ⟨root,os⟩ o.key o.box.value) := by
  obtain ⟨hkey,hbox⟩ := h.stack o mem_cons_self
  exact h.tail.assign hkey hbox

section

variable (h : FarState z s)
include h

theorem FarState.popTo (n : ℕ) : FarState z (popTo n s) :=
  popWhile_rule FarState.close h

theorem FarState.shut (hv : shut s k = some v) : Far z v :=
  (shut_rule FarState.close h).root k v hv

theorem FarState.assign_nested (hstack : s.stack ≠ []) (hk : k ≠ z) : FarState z (Yaml.assign s
    (some k) v) := by
  obtain ⟨root,_ | ⟨o,os⟩⟩ := s
  · exact absurd rfl hstack
  · exact h.assign_top (fun he => hk (Option.some.inj he)) fun he => by cases he

theorem FarState.place (he : FarEntry z e) (hplace : place n line isList s e = .ok s') :
    FarState z s' := by
  rcases place_cases hplace with ⟨v,rfl,rfl⟩ | ⟨k,v,rfl,rfl⟩ | ⟨k,v,rfl,-,rfl⟩ | ⟨k,rfl,-,rfl⟩
  · exact h.assign (by simp) he
  · exact h.push (by simp) (forall_mem_singleton.mpr he)
  · exact h.assign (fun hk => he.1 (Option.some.inj hk)) he.2
  · refine h.push (fun hk => he (Option.some.inj hk)) ?_
    cases isList with
    | true => exact forall_mem_nil _
    | false => exact forall_mem_nil _

end

theorem parsePlain_cases (h : parsePlain wide text = some v) :
    v = .str [] ∨ (quoted text = true ∧ v = .str text.tail.dropLast) ∨ (∃ b, v = .bool b) ∨
      v = .null ∨ ∃ i, v = .int i := by
  rw [parsePlain] at h
  split at h
  · cases h
    exact .inl rfl
  split at h
  next hquoted =>
    cases h
    exact .inr (.inl ⟨hquoted,rfl⟩)
  split at h
  · cases h
    exact .inr (.inr (.inl ⟨true,rfl⟩))
  split at h
  · cases h
    exact .inr (.inr (.inl ⟨false,rfl⟩))
  split at h
  · cases h
    exact .inr (.inr (.inr (.inl rfl)))
  · obtain ⟨i,-,rfl⟩ := Option.map_eq_some_iff.mp h
    exact .inr (.inr (.inr (.inr ⟨i,rfl⟩)))

theorem parsePlain_far (h : text.length < z.length) (hv : parsePlain wide text = some v) :
    Far z v := by
  have hne : ∀ t : Str, t.length ≤ text.length → t ≠ z := by
    rintro t ht rfl
    omega
  rcases parsePlain_cases hv with rfl | ⟨-,rfl⟩ | ⟨b,rfl⟩ | rfl | ⟨i,rfl⟩
  · exact hne [] (Nat.zero_le _)
  · exact hne _ (by simp; omega)
  · trivial
  · trivial
  · trivial

theorem parseCut_far (h : t.length < z.length) :
    Far z ((parsePlain wide (strip (rstrip t))).getD (.str (strip (rstrip t)))) := by
  have hcut : (strip (rstrip t)).length < z.length := by
    have h1 := strip_length_le (s:=rstrip t)
    have h2 : (rstrip t).length ≤ t.length := ( rdropWhile_prefix isSpace t).length_le
    omega
  generalize strip (rstrip t) = u at hcut
  cases hu : parsePlain wide u with
  | some v => exact parsePlain_far hcut hu
  | none =>
    rintro rfl
    omega

theorem parseScalar_far (h : raw.length < z.length) : Far z (parseScalar wide raw) := by
  have htext : (strip raw).length < z.length := lt_of_le_of_lt strip_length_le h
  rw [parseScalar]
  cases hplain : parsePlain wide (strip raw) with
  | some v => exact parsePlain_far htext hplain
  | none =>
    dsimp only
    split
    · exact parseCut_far (lt_of_le_of_lt ( takeWhile_prefix _).length_le htext)
    · intro heq
      rw [heq] at htext
      omega

theorem partitionColon_length (t : Str) :
    (partitionColon t).1.length ≤ t.length ∧ (partitionColon t).2.length ≤ t.length := by
  refine ⟨( takeWhile_prefix _).length_le,?_⟩
  have h1 := (dropWhile_sublist (l:=t) (· != ':')).length_le
  have h2 := (tail_sublist (t.dropWhile (· != ':'))).length_le
  exact h2.trans h1

theorem strip_ne_of_short (h : t.length < z.length) : strip t ≠ z := by
  have hle := strip_length_le (s:=t)
  rintro rfl
  omega

theorem entryOf_far (h : line.length < z.length) (he : entryOf wide line = some e) :
    FarEntry z e := by
  rw [entryOf] at he
  split at he
  · have hbody : (strip (line.drop 2)).length < z.length := by
      have h1 := strip_length_le (s:=line.drop 2)
      have h2 := length_drop (i:=2) (l:=line)
      omega
    dsimp only at he
    generalize strip (line.drop 2) = body at hbody he
    have hpart := partitionColon_length body
    split at he
    · cases he
      exact strip_ne_of_short (by omega)
    · cases he
      exact parseScalar_far hbody
  split at he
  · have hpart := partitionColon_length line
    dsimp only at he
    split at he
    · cases he
      exact strip_ne_of_short (by omega)
    · cases he
      refine ⟨strip_ne_of_short (by omega),parseScalar_far ?_⟩
      have := strip_length_le (s:=(partitionColon line).2)
      omega
  · cases he

/-- A line that does not bring the name. -/
def FarLine (wide : Char → Option ℕ) (z raw : Str) : Prop :=
  skipped raw = false → ∀ e, entryOf wide (strip raw) = some e → FarEntry z e

theorem farLine_of_short (h : raw.length < z.length) : FarLine wide z raw := fun _ _ he =>
  entryOf_far (lt_of_le_of_lt strip_length_le h) he

theorem FarState.step (h : FarState z s) (hraw : FarLine wide z raw)
    (hstep : step wide raw lines s = .ok s') : FarState z s' := by
  rcases step_cases hstep with ⟨-,rfl⟩ | ⟨hskip,e,he,hplace⟩
  · exact h
  · exact (h.popTo _).place (hraw hskip e he) hplace

/-- A name that no line brings is nowhere near the root. -/
theorem FarState.run (h : FarState z s) (hlines : ∀ raw ∈ lines, FarLine wide z raw)
    (hrun : run wide s lines = .ok s') : FarState z s' := by
  induction lines generalizing s with
  | nil =>
    cases hrun
    exact h
  | cons raw lines ih =>
    obtain ⟨hraw,hlines⟩ := forall_mem_cons.mp hlines
    obtain ⟨t,hstep,hrun⟩ := run_cons hrun
    exact ih (h.step hraw hstep) hlines hrun

/-- It is empty only as long as its first item is open. -/
def Linked : List Open → Prop
  | [] => True
  | [_] => True
  | o::o'::os => (o'.box = .list [] → o.key = none) ∧ Linked (o'::os)

structure Settled (s : State) : Prop where
  root : ∀ k, s.root k ≠ some (.list [])
  linked : Linked s.stack
  head : ∀ o ∈ s.stack.head?, o.box ≠ .list []

theorem Linked.tail (h : Linked (o::os)) : Linked os := by
  cases os with
  | nil => trivial
  | cons o' os => exact h.2

theorem linked_replace (h : Linked (o::os)) (hkey : o'.key = o.key) : Linked (o'::os) := by
  cases os with
  | nil => trivial
  | cons d os => exact ⟨fun hd => hkey.trans (h.1 hd),h.2⟩

theorem put_ne_nil (hbox : box = .list [] → key = none) :
    box.put key v ≠ .list [] := by
  cases box with
  | map kvs => cases key <;> simp [Box.put]
  | list xs =>
    cases key with
    | none => simp [Box.put]
    | some k =>
      intro h
      exact absurd (hbox h) (by simp)

theorem settled_assign (hroot : ∀ k, root k ≠ some (.list [])) (hlinked : Linked os)
    (hhead : ∀ o ∈ os.head?, o.box = .list [] → key = none) (hv : v ≠ .list []) :
    Settled (assign ⟨root,os⟩ key v) := by
  cases os with
  | nil =>
    cases key with
    | none => exact ⟨hroot,trivial,fun _ h => by cases h⟩
    | some k =>
      refine ⟨fun j => ?_,trivial,fun _ h => by cases h⟩
      by_cases hj : j = k
      · subst hj
        simpa [assign] using hv
      · simpa [assign,hj] using hroot j
  | cons o os =>
    refine ⟨hroot,linked_replace hlinked rfl,fun d hd => ?_⟩
    cases hd
    exact put_ne_nil (hhead o rfl)

theorem value_ne_nil (h : box ≠ .list []) : box.value ≠ .list [] := by
  cases box with
  | map kvs => simp [Box.value]
  | list xs =>
    intro he
    exact h (congrArg Box.list (Value.list.inj he))

theorem Settled.close (root : Str → Option Value) (o : Open) (os : List Open)
    (h : Settled ⟨root,o::os⟩) : Settled (assign ⟨root,os⟩ o.key o.box.value) := by
  refine settled_assign h.root h.linked.tail (fun d hd hbox => ?_) (value_ne_nil (h.head o rfl))
  cases os with
  | nil => cases hd
  | cons o' os =>
    cases hd
    exact h.linked.1 hbox

theorem Settled.popTo (h : Settled s) (n : ℕ) : Settled (popTo n s) :=
  popWhile_rule Settled.close h

/-- Settled, or with an empty list on top whose first item comes next. -/
structure Filled (s : State) (lines : List Str) : Prop where
  root : ∀ k, s.root k ≠ some (.list [])
  linked : Linked s.stack
  head : ∀ o ∈ s.stack.head?, o.box = .list [] → nextIsList o.indent lines = true

theorem Settled.filled (h : Settled s) : Filled s lines :=
  ⟨h.root,h.linked,fun o ho hbox => absurd hbox (h.head o ho)⟩

theorem Filled.settled (h : Filled s [] ) : Settled s :=
  ⟨h.root,h.linked,fun o ho hbox => by cases h.head o ho hbox⟩

theorem parsePlain_ne_list (h : parsePlain wide text = some v) : v ≠ .list [] := by
  rcases parsePlain_cases h with rfl | ⟨-,rfl⟩ | ⟨b,rfl⟩ | rfl | ⟨i,rfl⟩ <;> exact Value.noConfusion

theorem parseScalar_ne_list : parseScalar wide raw ≠ .list [] := by
  rw [parseScalar]
  cases h : parsePlain wide (strip raw) with
  | some v => exact parsePlain_ne_list h
  | none =>
    dsimp only
    split
    · generalize strip (rstrip ((strip raw).takeWhile (· != '#'))) = t
      cases ht : parsePlain wide t with
      | some v => exact parsePlain_ne_list ht
      | none => exact Value.noConfusion
    · exact Value.noConfusion

/-- Scalars and items are no empty lists. -/
def EntryFull : Entry → Prop
  | .item v => v ≠ .list []
  | .scalar _ v => v ≠ .list []
  | _ => True

theorem entryOf_full (he : entryOf wide line = some e) : EntryFull e := by
  rw [entryOf] at he
  split at he
  · dsimp only at he
    split at he
    · cases he
      trivial
    · cases he
      exact parseScalar_ne_list
  split at he
  · dsimp only at he
    split at he
    · cases he
      trivial
    · cases he
      exact parseScalar_ne_list
  · cases he

theorem inList_iff : s.inList = true ↔ ∃ o os xs, s.stack = o::os ∧ o.box = .list xs := by
  obtain ⟨root,_ | ⟨⟨i,k,xs | kvs⟩,os⟩⟩ := s
  · simp [State.inList]
  · simp [State.inList]
  · simp [State.inList]

theorem linked_cons (h : Linked os)
    (hhead : ∀ d ∈ os.head?, d.box = .list [] → o.key = none) : Linked (o::os) := by
  cases os with
  | nil => trivial
  | cons d os => exact ⟨hhead d rfl,h⟩

theorem filled_itemMap (hroot : ∀ k, s.root k ≠ some (.list [])) (h : Linked s.stack) :
    Filled { s with stack := ⟨n,none,.map [(k,v)]⟩::s.stack } lines := by
  refine ⟨hroot,linked_cons h fun _ _ _ => rfl,fun d hd hbox => ?_⟩
  cases hd
  cases hbox

theorem Settled.place (h : Settled s) (he : EntryFull e)
    (hplace : place n line (nextIsList n lines) s e = .ok s') : Filled s' lines := by
  rcases place_cases hplace with ⟨v,rfl,rfl⟩ | ⟨k,v,rfl,rfl⟩ | ⟨k,v,rfl,-,rfl⟩ | ⟨k,rfl,-,rfl⟩
  · exact (settled_assign h.root h.linked (fun _ _ _ => rfl) he).filled
  · exact filled_itemMap h.root h.linked
  · refine (settled_assign h.root h.linked (fun o ho hbox => ?_) he).filled
    exact absurd hbox (h.head o ho)
  · refine ⟨h.root,linked_cons h.linked fun o ho hbox => absurd hbox (h.head o ho),
      fun o ho hbox => ?_⟩
    cases ho
    cases hn : nextIsList n lines with
    | true => rfl
    | false =>
      rw [hn] at hbox
      cases hbox

/-- The line is deeper, and an item or an error. -/
theorem Filled.first (h : Filled s (raw::lines))
    (hs : s.stack = o::os) (hbox : o.box = .list []) (hraw : skipped raw = false)
    (he : entryOf wide (strip raw) = some e)
    (hplace : Yaml.place (indentOf raw) (strip raw) (nextIsList (indentOf raw) lines)
      (popTo (indentOf raw) s) e = .ok s') : Filled s' lines := by
  have hnext := h.head o (by rw [hs]; rfl) hbox
  rw [nextIsList,if_neg (by simp [hraw])] at hnext
  split at hnext
  · cases hnext
  next hdeep =>
  have hpop : popTo (indentOf raw) s = s := by
    obtain ⟨root,stack⟩ := s
    cases hs
    exact popTo_deeper (by omega) o.box
  rw [hpop] at hplace
  have hin : s.inList = true := inList_iff.mpr ⟨o,os,[],hs,hbox⟩
  rcases place_cases hplace with ⟨v,rfl,rfl⟩ | ⟨k,v,rfl,rfl⟩ | ⟨k,v,rfl,hno,-⟩ | ⟨k,rfl,hno,-⟩
  · exact (settled_assign h.root h.linked (fun _ _ _ => rfl) (entryOf_full he)).filled
  · exact filled_itemMap h.root h.linked
  · simp [hin] at hno
  · simp [hin] at hno

theorem Filled.step (h : Filled s (raw::lines)) (hstep : Yaml.step wide raw lines s = .ok s') :
    Filled s' lines := by
  rcases step_cases hstep with ⟨hraw,rfl⟩ | ⟨hraw,e,he,hplace⟩
  · refine ⟨h.root,h.linked,fun o ho hbox => ?_⟩
    have hnext := h.head o ho hbox
    rwa [nextIsList,if_pos hraw] at hnext
  · by_cases hempty : ∃ o os, s.stack = o::os ∧ o.box = .list []
    · obtain ⟨o,os,hs,hbox⟩ := hempty
      exact h.first hs hbox hraw he hplace
    · have hsettled : Settled s := by
        refine ⟨h.root,h.linked,fun o ho hbox => hempty ?_⟩
        obtain ⟨os,hs⟩ := head?_eq_some_iff.mp ho
        exact ⟨o,os,hs,hbox⟩
      exact (hsettled.popTo _).place (entryOf_full he) hplace

theorem Filled.run (h : Filled s lines) (hrun : Yaml.run wide s lines = .ok s') : Settled s' := by
  induction lines generalizing s with
  | nil =>
    cases hrun
    exact h.settled
  | cons raw lines ih =>
    obtain ⟨t,hstep,hrun⟩ := run_cons hrun
    exact ih (h.step hstep) hrun

theorem parseLines_ne_nil (h : parseLines wide lines = .ok r) : r k ≠ some (.list []) := by
  obtain ⟨t,hrun,rfl⟩ := exists_shut h
  have hempty : Filled empty (lines.map chomp) :=
    ⟨fun _ he => (by cases he),trivial,fun _ ho => (by cases ho)⟩
  exact (shut_rule Settled.close (hempty.run hrun)).root k

end TinyDeviceOs.Yaml
