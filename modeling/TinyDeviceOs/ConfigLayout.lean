import TinyDeviceOs.ConfigStore

/-! The layout of the store: the values lie apart in the data buffer, and another key is seen only
if the two have one hash and one length. -/
namespace TinyDeviceOs.ConfigStore

open LittleEndian Regions List Option

def Value.type : Value → UInt16
  | .string _ => configTypeString
  | .int _ => configTypeInt
  | .bool _ => configTypeBool
  | .blob _ => configTypeBlob

def Value.bytes : Value → Bytes
  | .string v => v.bytes++[0]
  | .int v => toBytes 4 v.toUInt32.toNat
  | .bool v => [if v then 1 else 0]
  | .blob v => v

variable {s s' : Store} {id other : Ident} {type : UInt16} {value : Bytes} {alloc : Bool} {i : ℕ}
  {e : Entry} {l r : List Entry}

def Entry.stop (e : Entry) : ℕ := e.offset.toNat+e.size.toNat

def Store.content (s : Store) (e : Entry) : Bytes := slice s.data e.offset.toNat e.size.toNat

structure Typed (type : UInt16) (value : Bytes) : Prop where
  int : type = configTypeInt → value.length = 4
  bool : type = configTypeBool → value.length = 1
  string : type = configTypeString → value.getLast? = some 0

def Apart (e e' : Entry) : Prop := e.stop ≤ e'.offset.toNat ∨ e'.stop ≤ e.offset.toNat

structure Intact (s : Store) : Prop where
  size : s.data.length = s.dataSize.toNat
  inside : ∀ e ∈ s.entries, e.stop ≤ s.data.length
  apart : s.entries.Pairwise Apart
  typed : ∀ e ∈ s.entries, Typed e.type (s.content e)

theorem configFindEntry_some (h : configFindEntry s id = some i) :
    ∃ l e r, s.entries = l++e::r ∧ i = l.length ∧ e.isFor id = true ∧
      ∀ x ∈ l, x.isFor id = false := by
  obtain ⟨hi,hp,hl⟩ := findIdx?_eq_some_iff_getElem.mp h
  refine ⟨s.entries.take i,s.entries[i],s.entries.drop (i+1),?_,?_,hp,?_⟩
  · rw [getElem_cons_drop,take_append_drop]
  · simp
    omega
  · intro x hx
    obtain ⟨j,hj,rfl⟩ := getElem_of_mem hx
    rw [getElem_take]
    exact Bool.eq_false_of_not_eq_true (hl j (by simp at hj; omega))

def lookup (s : Store) (id : Ident) : Option (UInt16 × Bytes) :=
  (s.entries.find? (Entry.isFor id)).map fun e => (e.type,s.content e)

/-- Too small entries are removed; then one of two branches is taken. -/
theorem setEntry_induction {P : Store → Prop} {Q : Result → Prop}
    (hadd : ∀ s, P s → configFindEntry s id = none → Q (addEntry s id type value alloc))
    (hoverwrite : ∀ s l e r, P s → s.entries = l++e::r → e.isFor id = true →
      (∀ x ∈ l, x.isFor id = false) → value.length ≤ e.size.toNat →
      Q (overwrite s l.length e type value))
    (hremove : ∀ s l e r, P s → s.entries = l++e::r → e.isFor id = true →
      e.size.toNat < value.length → P (removeEntry s l.length))
    {fuel : ℕ} (h : P s) (hfuel : s.entries.length ≤ fuel) :
    Q (setEntry id type value alloc fuel s) := by
  induction fuel generalizing s with
  | zero =>
    have hnil : s.entries = [] := length_eq_zero_iff.mp (Nat.le_zero.mp hfuel)
    exact hadd s h (by rw [configFindEntry,hnil]; rfl)
  | succ fuel ih =>
    rw [setEntry]
    cases hfind : configFindEntry s id with
    | none => exact hadd s h hfind
    | some i =>
      obtain ⟨l,e,r,hs,rfl,hid,hl⟩ := configFindEntry_some hfind
      have hget : s.entries[l.length]? = some e := by simp [hs]
      simp only [hget]
      split_ifs with hsize
      · exact hoverwrite s l e r h hs hid hl hsize
      · refine ih (hremove s l e r h hs hid (not_le.mp hsize)) ?_
        rw [hs,length_append,length_cons] at hfuel
        simp only [removeEntry,hs,eraseIdx_append_of_length_le (Nat.le_refl _),Nat.sub_self,
          eraseIdx_cons_zero,length_append]
        omega

theorem removeEntry_entries (hs : s.entries = l++e::r) :
    (removeEntry s l.length).entries = l++r := by
  simp [removeEntry,hs,eraseIdx_append_of_length_le (le_rfl)]

theorem removeEntry_sublist (hs : s.entries = l++e::r) :
    (removeEntry s l.length).entries.Sublist s.entries := by
  rw [removeEntry_entries hs,hs]
  exact List.Sublist.append_left (sublist_cons_self e r) l

theorem Intact.remove (h : Intact s) (hs : s.entries = l++e::r) :
    Intact (removeEntry s l.length) := by
  have hsub := removeEntry_sublist hs
  exact ⟨h.size,fun x hx => h.inside x (hsub.mem hx),h.apart.sublist hsub,
    fun x hx => h.typed x (hsub.mem hx)⟩

theorem find_split (he : p e = false) : (l++e::r).find? p = (l++r).find? p := by
  rw [find?_append,find?_append,find?_cons_of_neg (by simp [he])]

theorem lookup_remove (hs : s.entries = l++e::r) (he : e.isFor other = false) :
    lookup (removeEntry s l.length) other = lookup s other := by
  rw [lookup,lookup,removeEntry_entries hs,hs,find_split he]
  rfl

theorem size_le_of_mem (h : Intact s) (he : e ∈ s.entries) (hsize : value.length ≤ e.size.toNat) :
    e.offset.toNat+value.length ≤ s.data.length := by
  have hin := h.inside e he
  rw [Entry.stop] at hin
  omega

def Entry.resized (e : Entry) (type : UInt16) (value : Bytes) : Entry :=
  { e with size := UInt32.ofNat value.length, type := type }

theorem resized_size (hsize : value.length ≤ e.size.toNat) :
    (e.resized type value).size.toNat = value.length := by
  have hlt := e.size.toNat_lt
  rw [Entry.resized,UInt32.toNat_ofNat',Nat.mod_eq_of_lt (by omega)]

def overwritten (s : Store) (l r : List Entry) (e : Entry) (type : UInt16) (value : Bytes) : Store :=
  { s with
    data := patch 0 s.data e.offset.toNat value
    entries := l++e.resized type value::r
    dirty := true }

theorem overwrite_eq (h : Intact s) (hs : s.entries = l++e::r)
    (hsize : value.length ≤ e.size.toNat) :
    overwrite s l.length e type value = some (true,overwritten s l r e type value) := by
  have hin := size_le_of_mem h (e:=e) (by simp [hs]) hsize
  simp [overwrite,overwritten,Entry.resized,hin,hs]

theorem overwritten_content (h : Intact s) (hs : s.entries = l++e::r) (hsize : value.length ≤
    e.size.toNat) (hx : x ∈ l++r) : (overwritten s l r e type value).content x = s.content x := by
  have hmem : x ∈ s.entries := by
    rw [hs]
    rcases mem_append.mp hx with hx | hx
    · exact mem_append_left _ hx
    · exact mem_append_right _ (mem_cons_of_mem e hx)
  have happart : Apart x e ∨ Apart e x := by
    have hpairs := h.apart
    rw [hs,pairwise_append] at hpairs
    rcases mem_append.mp hx with hx | hx
    · exact .inl (hpairs.2.2 x hx e mem_cons_self)
    · exact .inr ((pairwise_cons.mp hpairs.2.1).1 x hx)
  refine slice_patch_of_disjoint (h.inside x hmem) ?_
  simp only [Apart,Entry.stop] at happart
  omega

theorem overwritten_content_self (hsize : value.length ≤ e.size.toNat) :
    (overwritten s l r e type value).content (e.resized type value) = value := by
  rw [Store.content,resized_size hsize]
  exact slice_patch_self

section

variable (h : Intact s) (hs : s.entries = l++e::r) (hsize : value.length ≤ e.size.toNat)
include h hs hsize

theorem Intact.overwritten (htyped : Typed type value) : Intact (overwritten s l r e type value) := by
  have hin := size_le_of_mem h (e:=e) (by simp [hs]) hsize
  have hlen : (ConfigStore.overwritten s l r e type value).data.length = s.data.length := by
    rw [ConfigStore.overwritten,patch_length]
    omega
  have hstop : (e.resized type value).stop ≤ e.stop := by
    rw [Entry.stop,Entry.stop,resized_size hsize]
    exact Nat.add_le_add_left hsize _
  have hold {x : Entry} (hx : x ∈ l++e.resized type value::r) :
      x = e.resized type value ∨ x ∈ l++r := by
    simpa [or_left_comm] using hx
  have hmem {x : Entry} (hx : x ∈ l++r) : x ∈ s.entries := by
    rw [hs]
    simp only [mem_append,mem_cons] at hx ⊢
    tauto
  have he : e ∈ s.entries := by simp [hs]
  refine ⟨hlen.trans h.size,fun x hx => ?_,?_,fun x hx => ?_⟩
  · rw [hlen]
    rcases hold hx with rfl | hx
    · exact hstop.trans (h.inside e he)
    · exact h.inside x (hmem hx)
  · have hpairs := h.apart
    rw [hs,pairwise_append,pairwise_cons] at hpairs
    obtain ⟨hl,⟨her,hr⟩,hlr⟩ := hpairs
    refine pairwise_append.mpr
      ⟨hl,pairwise_cons.mpr ⟨fun x hx => ?_,hr⟩,fun x hx y hy => ?_⟩
    · rcases her x hx with hd | hd
      · exact .inl (hstop.trans hd)
      · exact .inr hd
    · rcases mem_cons.mp hy with rfl | hy
      · rcases hlr x hx e mem_cons_self with hd | hd
        · exact .inl hd
        · exact .inr (hstop.trans hd)
      · exact hlr x hx y (mem_cons_of_mem e hy)
  · rcases hold hx with rfl | hx
    · rw [overwritten_content_self hsize]
      exact htyped
    · rw [overwritten_content h hs hsize hx]
      exact h.typed x (hmem hx)

theorem lookup_overwritten (he : e.isFor other = false) : lookup (ConfigStore.overwritten s l r
    e type value) other = lookup s other := by
  have he' : (e.resized type value).isFor other = false := he
  rw [lookup,lookup,hs,find_split he]
  change ((l++e.resized type value::r).find? _).map _ = _
  rw [find_split he']
  refine Option.map_congr fun x hx => ?_
  rw [overwritten_content h hs hsize (mem_of_find?_eq_some hx)]

end

theorem lookup_overwritten_self (hid : e.isFor id = true) (hl : ∀ x ∈ l, x.isFor id = false)
    (hsize : value.length ≤ e.size.toNat) :
    lookup (ConfigStore.overwritten s l r e type value) id = some (type,value) := by
  have hid' : (e.resized type value).isFor id = true := hid
  have hnone : l.find? (Entry.isFor id) = none := find?_eq_none.mpr (by simpa using hl)
  rw [lookup]
  change ((l++e.resized type value::r).find? _).map _ = _
  rw [find?_append,hnone,none_or,find?_cons_of_pos hid',map_some,
    overwritten_content_self hsize]
  rfl

def added (s : Store) (id : Ident) (type : UInt16) (value : Bytes) : Store :=
  { s with
    entries := s.entries++[newEntry s id type value]
    data := s.data++value
    dataSize := s.dataSize+UInt32.ofNat value.length
    dirty := true }

/-- What makes a setter refuse to add an entry. -/
def Full (s : Store) (value : Bytes) : Prop :=
  1024 ≤ s.entries.length ∨ 65536 < s.dataSize.toNat+value.length

variable (id type value alloc) in
theorem addEntry_cases (h : s.data.length = s.dataSize.toNat) :
    Full s value ∧ addEntry s id type value alloc = some (false,s) ∨
      ¬Full s value ∧ (s.capacity ≤ s.entries.length ∧ addEntry s id type value alloc = none ∨
        s.entries.length < s.capacity ∧
          (alloc = true ∧ addEntry s id type value alloc = some (true,added s id type value) ∨
            alloc = false ∧ ∃ s', addEntry s id type value alloc = some (false,s'))) := by
  by_cases hcount : 1024 ≤ s.entries.length
  · exact .inl ⟨.inl hcount,by rw [addEntry,if_pos hcount]⟩
  · rw [addEntry,if_neg hcount]
    by_cases hroom : s.dataSize.toNat+value.length ≤ 65536
    · refine .inr ⟨by rw [Full]; omega,?_⟩
      rw [if_neg (by simp [configReserveData,hroom])]
      by_cases hcap : s.capacity ≤ s.entries.length
      · exact .inl ⟨hcap,if_pos hcap⟩
      · refine .inr ⟨Nat.lt_of_not_le hcap,?_⟩
        rw [if_neg hcap]
        cases alloc with
        | true =>
          refine .inl ⟨rfl,?_⟩
          simp only [if_true,patch_resize h,added]
        | false => exact .inr ⟨rfl,_,rfl⟩
    · refine .inl ⟨.inr (by omega),?_⟩
      rw [if_pos (by simpa [configReserveData] using hroom)]

theorem newEntry_size (hfull : ¬Full s value) :
    (newEntry s id type value).size.toNat = value.length := by
  rw [Full] at hfull
  rw [newEntry,UInt32.toNat_ofNat',Nat.mod_eq_of_lt (by omega)]

theorem added_dataSize (hfull : ¬Full s value) :
    (added s id type value).dataSize.toNat = s.dataSize.toNat+value.length := by
  rw [Full] at hfull
  rw [added,UInt32.toNat_add,UInt32.toNat_ofNat',Nat.mod_eq_of_lt (a:=value.length) (by omega),
    Nat.mod_eq_of_lt (by omega)]

section

variable (h : Intact s)
include h

theorem added_content (he : e ∈ s.entries) : (added s id type value).content e = s.content e :=
  slice_append_left (h.inside e he)

theorem added_content_self (hfull : ¬Full s value) : (added s id type value).content (newEntry s
    id type value) = value := by
  rw [Store.content,newEntry_size hfull]
  change slice (s.data++value) s.dataSize.toNat value.length = value
  rw [←h.size]
  exact slice_append_right

theorem Intact.added (hfull : ¬Full s value) (htyped : Typed type value) : Intact (added s id
    type value) := by
  have hlen : (ConfigStore.added s id type value).data.length = s.data.length+value.length :=
    length_append
  have hstop : (newEntry s id type value).stop = s.data.length+value.length := by
    rw [Entry.stop,newEntry_size hfull,h.size]
    rfl
  refine ⟨?_,fun e he => ?_,?_,fun e he => ?_⟩
  · rw [hlen,added_dataSize hfull,h.size]
  · rw [hlen]
    rcases mem_append.mp he with he | he
    · exact (h.inside e he).trans (Nat.le_add_right _ _)
    · rw [mem_singleton.mp he,hstop]
  · refine pairwise_append.mpr ⟨h.apart,pairwise_singleton _ _,fun e he e' he' => ?_⟩
    rw [mem_singleton.mp he']
    exact .inl ((h.inside e he).trans h.size.le)
  · rcases mem_append.mp he with he | he
    · rw [added_content h he]
      exact h.typed e he
    · rw [mem_singleton.mp he,added_content_self h hfull]
      exact htyped

theorem lookup_added (hother : (newEntry s id type value).isFor other = false) : lookup
    (ConfigStore.added s id type value) other = lookup s other := by
  rw [lookup,lookup]
  change ((s.entries++[_]).find? _).map _ = _
  rw [find_split hother,append_nil]
  exact Option.map_congr fun e he => by rw [added_content h (mem_of_find?_eq_some he)]

theorem lookup_added_self (hfull : ¬Full s value) (hid : id.len < 65536) (hnone :
    configFindEntry s id = none) : lookup (ConfigStore.added s id type value) id = some
    (type,value) := by
  have hnone' : s.entries.find? (Entry.isFor id) = none := by
    rw [find?_eq_none]
    simpa [configFindEntry,findIdx?_eq_none_iff] using hnone
  have hnew : (newEntry s id type value).isFor id = true := by
    simpa [Entry.isFor,newEntry] using hid
  rw [lookup]
  change ((s.entries++[_]).find? _).map _ = _
  rw [find?_append,hnone',none_or,find?_cons_of_pos hnew,map_some,
    added_content_self h hfull]
  rfl

end

/-- An intact store within the limits. -/
structure Sound (s : Store) : Prop where
  intact : Intact s
  count : s.entries.length ≤ 1024
  dataSize : s.dataSize.toNat ≤ 65536
  allocated : s.entries.length ≤ s.capacity

theorem Sound.remove (h : Sound s) (hs : s.entries = l++e::r) : Sound (removeEntry s l.length) := by
  have hle : (removeEntry s l.length).entries.length ≤ s.entries.length := by
    rw [removeEntry_entries hs,hs]
    simp
  exact ⟨h.intact.remove hs,hle.trans h.count,h.dataSize,hle.trans h.allocated⟩

theorem Sound.overwritten (h : Sound s) (hs : s.entries = l++e::r)
    (hsize : value.length ≤ e.size.toNat) (htyped : Typed type value) :
    Sound (overwritten s l r e type value) := by
  have hlen : (ConfigStore.overwritten s l r e type value).entries.length = s.entries.length := by
    rw [hs]
    simp [ConfigStore.overwritten]
  exact ⟨h.intact.overwritten hs hsize htyped,hlen.le.trans h.count,h.dataSize,
    hlen.le.trans h.allocated⟩

theorem Sound.added (h : Sound s) (hfull : ¬Full s value) (hroom : s.entries.length < s.capacity)
    (htyped : Typed type value) : Sound (added s id type value) := by
  have hlen : (ConfigStore.added s id type value).entries.length = s.entries.length+1 :=
    length_append
  refine ⟨h.intact.added hfull htyped,?_,?_,?_⟩
  · rw [Full] at hfull
    omega
  · rw [added_dataSize hfull]
    rw [Full] at hfull
    omega
  · rw [hlen]
    exact hroom

section

theorem Value.typed (v : Value) : Typed v.type v.bytes := by
  cases v <;> constructor <;>
    simp [Value.type,Value.bytes,configTypeInt,configTypeBool,configTypeString,configTypeBlob]

variable {signedChar : Bool} {key : CString} {v : Value}

theorem configSetValue_eq : configSetValue signedChar s key alloc v =
    if v = .blob [] then some (false,s)
    else setEntry (identOf signedChar key) v.type v.bytes alloc s.entries.length s := by
  cases v with
  | blob v =>
    simp only [configSetValue,configSetBlob,Value.blob.injEq]
    rfl
  | _ => rfl

end

section

/-- What an entry of `id` may be found by. -/
def Ident.Collides (id other : Ident) : Prop := id.hash = other.hash ∧ other.len = id.len % 65536

theorem not_isFor_of_isFor (h : ¬id.Collides other) (he : e.isFor id = true) :
    e.isFor other = false := by
  have hlt := e.keyLen.toNat_lt
  simp only [Entry.isFor,decide_eq_true_eq] at he
  refine decide_eq_false fun he' => h ⟨he.1.symm.trans he'.1,?_⟩
  rw [←he.2,Nat.mod_eq_of_lt hlt,he'.2]

theorem newEntry_not_isFor (h : ¬id.Collides other) :
    (newEntry s id type value).isFor other = false := by
  refine decide_eq_false fun he => h ⟨he.1,?_⟩
  rw [←he.2]
  exact UInt16.toNat_ofNat'

/-- A success keeps the layout and what other keys see. -/
theorem setEntry_frame (h : Intact s) (htyped : Typed type value)
    (hs : setEntry id type value alloc s.entries.length s = some (true,s')) :
    Intact s' ∧ ∀ other, ¬id.Collides other → lookup s' other = lookup s other := by
  refine setEntry_induction
    (P:=fun t => Intact t ∧ ∀ other, ¬id.Collides other → lookup t other = lookup s other)
    (Q:=fun r => ∀ t, r = some (true,t) →
      Intact t ∧ ∀ other, ¬id.Collides other → lookup t other = lookup s other)
    ?_ ?_ ?_ ⟨h,fun _ _ => rfl⟩ le_rfl s' hs
  · intro t ⟨ht,hlook⟩ hnone u hu
    rcases addEntry_cases id type value alloc ht.size with
      ⟨-,hr⟩ | ⟨hfull,⟨-,hr⟩ | ⟨-,⟨-,hr⟩ | ⟨-,t',hr⟩⟩⟩
    · exact absurd (hr.symm.trans hu) (by simp)
    · exact absurd (hr.symm.trans hu) (by simp)
    · obtain rfl : added t id type value = u := by simpa using hr.symm.trans hu
      refine ⟨ht.added hfull htyped,fun other hother => ?_⟩
      rw [lookup_added ht (newEntry_not_isFor hother),hlook other hother]
    · exact absurd (hr.symm.trans hu) (by simp)
  · intro t l e r ⟨ht,hlook⟩ hsplit hid hl hsize u hu
    obtain rfl : overwritten t l r e type value = u := by
      simpa using (overwrite_eq ht hsplit hsize).symm.trans hu
    refine ⟨ht.overwritten hsplit hsize htyped,fun other hother => ?_⟩
    rw [lookup_overwritten ht hsplit hsize (not_isFor_of_isFor hother hid),hlook other hother]
  · intro t l e r ⟨ht,hlook⟩ hsplit hid _
    refine ⟨ht.remove hsplit,fun other hother => ?_⟩
    rw [lookup_remove hsplit (not_isFor_of_isFor hother hid),hlook other hother]

variable {signedChar : Bool} {key : CString} {c : Change}

theorem apply_frame (h : Intact s) (hs : c.apply signedChar s key = some (true,s')) :
    Intact s' ∧ ∀ other, ¬(identOf signedChar key).Collides other →
      lookup s' other = lookup s other := by
  cases c with
  | set v alloc =>
    rw [Change.apply,configSetValue_eq] at hs
    split_ifs at hs
    · exact absurd hs (by simp)
    · exact setEntry_frame h v.typed hs
  | delete =>
    simp only [Change.apply,configDelete] at hs
    cases hfind : configFindEntry s (identOf signedChar key) with
    | none => exact absurd hs (by simp [hfind])
    | some i =>
      obtain ⟨l,e,r,hsplit,rfl,hid,-⟩ := configFindEntry_some hfind
      obtain rfl : removeEntry s l.length = s' := by simpa [hfind] using hs
      exact ⟨h.remove hsplit,fun other hother => lookup_remove hsplit (not_isFor_of_isFor hother hid)⟩

end

section

variable (signedChar : Bool) (key : CString)

theorem configFindEntry_bind : ((configFindEntry s id).bind fun i => s.entries[i]?) =
    s.entries.find? (Entry.isFor id) :=
  find?_eq_bind_findIdx?_getElem?.symm

def bytesOf (type : UInt16) (cell : Option (UInt16 × Bytes)) : Option Bytes :=
  cell.bind fun c => if c.1 = type then some c.2 else none

variable (cell : Option (UInt16 × Bytes))

def asString (default : Option Bytes) : Option Bytes :=
  match bytesOf configTypeString cell with
  | none => default
  | some bytes => some (bytes.takeWhile (· ≠ 0))

def asInt (default : Int32) : Int32 :=
  match bytesOf configTypeInt cell with
  | none => default
  | some bytes => (UInt32.ofNat (ofBytes bytes)).toInt32

def asBool (default : Bool) : Bool :=
  match bytesOf configTypeBool cell with
  | none => default
  | some bytes => bytes ≠ [0]

def asBlob (maxSize : ℕ) : Option Bytes :=
  if maxSize = 0 then none
  else match bytesOf configTypeBlob cell with
    | none => none
    | some bytes => some (bytes.take maxSize)

theorem configExists_eq :
    configExists signedChar s (some key) = (lookup s (identOf signedChar key)).isSome := by
  rw [lookup,isSome_map,configExists,configFindEntry,findIdx?_isSome,isSome_find?]

theorem typedEntry_cases : typedEntry signedChar s (some key) type = none ∧ bytesOf type (lookup
    s (identOf signedChar key)) = none ∨ ∃ e ∈ s.entries, typedEntry signedChar s (some key)
    type = some e ∧ e.type = type ∧ bytesOf type (lookup s (identOf signedChar key)) = some
    (s.content e) := by
  simp only [typedEntry,configFindEntry_bind,lookup]
  cases hfind : s.entries.find? (Entry.isFor (identOf signedChar key)) with
  | none => exact .inl ⟨rfl,rfl⟩
  | some e =>
    by_cases htype : e.type = type
    · exact .inr ⟨e,mem_of_find?_eq_some hfind,by simp [htype],htype,by simp [bytesOf,htype]⟩
    · exact .inl ⟨by simp [htype],by simp [bytesOf,htype]⟩

variable {signedChar key}

theorem takeWhile_take {xs : Bytes} {size : ℕ} (h : 0 ∈ xs.take size) :
    (xs.take size).takeWhile (· ≠ 0) = xs.takeWhile (· ≠ 0) := by
  induction xs generalizing size with
  | nil => simp
  | cons x xs ih =>
    cases size with
    | zero => simp at h
    | succ size =>
      by_cases hx : x = 0
      · simp [hx]
      · have hrest : 0 ∈ xs.take size := by simpa [Ne.symm hx] using h
        simpa [hx] using ih hrest

section

variable (h : Intact s)
include h

theorem readData_eq (he : e ∈ s.entries) (hsize : size ≤ e.size.toNat) : readData
    s e.offset.toNat size = some ((s.content e).take size) := by
  have hin := h.inside e he
  rw [Entry.stop] at hin
  rw [readData,if_pos (.inr (by omega)),Store.content,slice,slice,take_take,min_eq_left hsize]

theorem content_length (he : e ∈ s.entries) :
    (s.content e).length = e.size.toNat :=
  slice_length (h.inside e he)

theorem configGetString_eq (default : Option Bytes) :
    configGetString signedChar s (some key) default =
      some (asString (lookup s (identOf signedChar key)) default) := by
  rcases typedEntry_cases (s:=s) signedChar key with
    ⟨hnone,hseen⟩ | ⟨e,he,hsome,htype,hseen⟩
  · rw [configGetString,hnone,asString,hseen]
  · have hzero : 0 ∈ s.content e := mem_of_getLast? ((h.typed e he).string htype)
    have hrest : 0 ∈ s.data.drop e.offset.toNat := mem_of_mem_take hzero
    rw [configGetString,hsome,asString,hseen]
    simp only [hrest,if_true]
    rw [Store.content,slice,takeWhile_take hzero]

theorem configGetInt_eq (default : Int32) :
    configGetInt signedChar s (some key) default =
      some (asInt (lookup s (identOf signedChar key)) default) := by
  rcases typedEntry_cases (s:=s) signedChar key with
    ⟨hnone,hseen⟩ | ⟨e,he,hsome,htype,hseen⟩
  · rw [configGetInt,hnone,asInt,hseen]
  · have hlen := (h.typed e he).int htype
    rw [configGetInt,hsome,asInt,hseen]
    dsimp only
    rw [readData_eq h he (by rw [←content_length h he,hlen]),take_of_length_le hlen.le]
    rfl

theorem configGetBool_eq (default : Bool) :
    configGetBool signedChar s (some key) default =
      some (asBool (lookup s (identOf signedChar key)) default) := by
  rcases typedEntry_cases (s:=s) signedChar key with
    ⟨hnone,hseen⟩ | ⟨e,he,hsome,htype,hseen⟩
  · rw [configGetBool,hnone,asBool,hseen]
  · have hlen := (h.typed e he).bool htype
    rw [configGetBool,hsome,asBool,hseen]
    dsimp only
    rw [readData_eq h he (by rw [←content_length h he,hlen]),take_of_length_le hlen.le]
    rfl

theorem configGetBlob_eq (maxSize : ℕ) :
    configGetBlob signedChar s (some key) maxSize =
      some (asBlob (lookup s (identOf signedChar key)) maxSize) := by
  rw [configGetBlob,asBlob]
  split_ifs with hmax
  · rfl
  · rcases typedEntry_cases (s:=s) signedChar key with
      ⟨hnone,hseen⟩ | ⟨e,he,hsome,htype,hseen⟩
    · rw [hnone,hseen]
    · rw [hsome,hseen]
      dsimp only
      rw [readData_eq h he (min_le_left _ _),map_some,min_comm,←take_take,
        ←content_length h he,take_length]

end

end

/-- What a key can ask of two stores has the same answers. -/
structure SameResults (signedChar : Bool) (key : CString) (s s' : Store) : Prop where
  configExists : configExists signedChar s' (some key) = configExists signedChar s (some key)
  configGetString : ∀ default, configGetString signedChar s' (some key) default =
    configGetString signedChar s (some key) default
  configGetInt : ∀ default, configGetInt signedChar s' (some key) default =
    configGetInt signedChar s (some key) default
  configGetBool : ∀ default, configGetBool signedChar s' (some key) default =
    configGetBool signedChar s (some key) default
  configGetBlob : ∀ maxSize, configGetBlob signedChar s' (some key) maxSize =
    configGetBlob signedChar s (some key) maxSize

theorem sameResults_of_lookup {signedChar : Bool} {key : CString} (h : Intact s) (h' : Intact s')
    (hlook : lookup s' (identOf signedChar key) = lookup s (identOf signedChar key)) :
    SameResults signedChar key s s' where
  configExists := by rw [configExists_eq,configExists_eq,hlook]
  configGetString := fun default => by rw [configGetString_eq h,configGetString_eq h',hlook]
  configGetInt := fun default => by rw [configGetInt_eq h,configGetInt_eq h',hlook]
  configGetBool := fun default => by rw [configGetBool_eq h,configGetBool_eq h',hlook]
  configGetBlob := fun maxSize => by rw [configGetBlob_eq h,configGetBlob_eq h',hlook]

def fresh : Store where
  version := configVersion
  reserved := 0
  dataOffset := 16404
  dataSize := 0
  entries := []
  capacity := 1024
  data := []
  dirty := false

theorem configStoreInit_nil : configStoreInit [] true = some fresh := by
  decide

theorem fresh_sound : Sound fresh :=
  ⟨⟨rfl,by simp [fresh],List.Pairwise.nil,by simp [fresh]⟩,by simp [fresh],by simp [fresh],
    by simp [fresh]⟩

/-- A change under the key `k₁` can be seen under `k₂`. -/
def Collide (signedChar : Bool) (k₁ k₂ : CString) : Prop :=
  hashKey signedChar k₁ = hashKey signedChar k₂ ∧ k₂.bytes.length = k₁.bytes.length % 65536

/-- Changes under one key that succeed leave the results under another key alone exactly when
the two do not collide. -/
theorem keys_independent_iff (signedChar : Bool) (k₁ k₂ : CString) :
    (∀ s s' c, Intact s → Change.apply signedChar s k₁ c = some (true,s') →
      SameResults signedChar k₂ s s') ↔ ¬Collide signedChar k₁ k₂ := by
  constructor
  · intro h hcollide
    have hadd : Change.apply signedChar fresh k₁ (.set (.bool true) true) =
        some (true,added fresh (identOf signedChar k₁) configTypeBool [1]) := by
      rw [Change.apply,configSetValue_eq,if_neg (by simp)]
      rfl
    have hsame := (h fresh _ _ fresh_sound.intact hadd).configExists
    have hbefore : configExists signedChar fresh (some k₂) = false := rfl
    have hafter : configExists signedChar (added fresh (identOf signedChar k₁) configTypeBool [1])
        (some k₂) = true := by
      have hfor : (newEntry fresh (identOf signedChar k₁) configTypeBool [1]).isFor
          (identOf signedChar k₂) = true := by
        refine decide_eq_true ⟨hcollide.1,?_⟩
        rw [newEntry,UInt16.toNat_ofNat']
        exact hcollide.2.symm
      rw [configExists,configFindEntry,findIdx?_isSome]
      exact List.any_eq_true.mpr ⟨_,mem_append_right _ mem_cons_self,hfor⟩
    rw [hbefore,hafter] at hsame
    cases hsame
  · intro hno s s' c h hs
    obtain ⟨h',hlook⟩ := apply_frame h hs
    exact sameResults_of_lookup h h' (hlook _ hno)

def keyA : CString := ⟨[97],by decide⟩

/-- The keys `Aa` and `B@` have the same hash. -/
theorem setInt_seen_under_other_key :
    ∃ s', configSetInt true fresh (some ⟨[65,97],by decide⟩) 1 true = some (true,s') ∧
      configExists true fresh (some ⟨[66,64],by decide⟩) = false ∧
      configExists true s' (some ⟨[66,64],by decide⟩) = true :=
  ⟨_,rfl,rfl,by decide⟩

end TinyDeviceOs.ConfigStore
