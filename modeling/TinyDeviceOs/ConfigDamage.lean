import TinyDeviceOs.ConfigLayout

/-! A store that was loaded from a damaged file. The offsets, sizes and types of the entries are
used as they are. -/
namespace TinyDeviceOs.ConfigStore

open LittleEndian Regions List Option

variable {s : Store} {id : Ident} {type : UInt16} {value : Bytes} {alloc signedChar : Bool}
  {e : Entry} {l r : List Entry} {file : Bytes} {key : CString} {v : Value}

theorem configStoreInit_data (h : configStoreInit file alloc = some s) :
    s.data.length = s.dataSize.toNat := by
  simp only [configStoreInit] at h
  split_ifs at h with hnew halloc hmagic hcount hdata
  · obtain rfl := some.inj h
    rfl
  · obtain rfl := some.inj h
    rcases eq_zero_or_pos (field32 (resize 0 (file.take headerSize) headerSize) 16).toNat with
      hzero | hpos
    · simp [slice,hzero]
    · exact slice_length (not_lt.mp fun hshort => hdata ⟨hpos,.inr hshort⟩)

def Entry.takes (id : Ident) (len : ℕ) (e : Entry) : Bool := e.isFor id ∧ len ≤ e.size.toNat

/-- None if the setter adds an entry. -/
def overwriteTarget (s : Store) (id : Ident) (len : ℕ) : Option Entry :=
  s.entries.find? (Entry.takes id len)

theorem takes_of_isFor_false (h : e.isFor id = false) : e.takes id len = false := by
  simp [Entry.takes,h]

theorem setEntry_branch (id : Ident) (type : UInt16) (value : Bytes) (alloc : Bool) (s : Store) :
    (∃ e t i, overwriteTarget s id value.length = some e ∧ t.data = s.data ∧
      setEntry id type value alloc s.entries.length s = overwrite t i e type value) ∨
    overwriteTarget s id value.length = none ∧ ∃ t : Store, t.data = s.data ∧
      setEntry id type value alloc s.entries.length s = addEntry t id type value alloc := by
  refine setEntry_induction
    (P:=fun t => t.data = s.data ∧ overwriteTarget t id value.length =
      overwriteTarget s id value.length)
    (Q:=fun result => (∃ e t i, overwriteTarget s id value.length = some e ∧ t.data = s.data ∧
        result = overwrite t i e type value) ∨
      overwriteTarget s id value.length = none ∧ ∃ t : Store, t.data = s.data ∧
        result = addEntry t id type value alloc)
    ?_ ?_ ?_ ⟨rfl,rfl⟩ le_rfl
  · rintro t ⟨hdata,htarget⟩ hnone
    refine .inr ⟨?_,t,hdata,rfl⟩
    rw [←htarget]
    refine find?_eq_none.mpr fun x hx => ?_
    have hfor : x.isFor id = false := findIdx?_eq_none_iff.mp hnone x hx
    rw [takes_of_isFor_false hfor]
    exact Bool.false_ne_true
  · rintro t l e r ⟨hdata,htarget⟩ hs hfor hl hsize
    refine .inl ⟨e,t,l.length,?_,hdata,rfl⟩
    rw [←htarget,overwriteTarget,hs,find?_append,
      find?_eq_none.mpr fun x hx => by simp [takes_of_isFor_false (hl x hx)],none_or]
    exact find?_cons_of_pos (decide_eq_true ⟨hfor,hsize⟩)
  · rintro t l e r ⟨hdata,htarget⟩ hs _ hsize
    refine ⟨hdata,?_⟩
    have hsmall : e.takes id value.length = false :=
      decide_eq_false fun h => not_le.mpr hsize h.2
    rw [←htarget,overwriteTarget,overwriteTarget,removeEntry_entries hs,hs,find_split hsmall]

theorem setEntry_overwrites (h : overwriteTarget s id value.length = some e) :
    setEntry id type value alloc s.entries.length s ≠ none ↔
      e.offset.toNat+value.length ≤ s.data.length := by
  rcases setEntry_branch id type value alloc s with ⟨e',t,i,htarget,hdata,hset⟩ | ⟨hnone,-⟩
  · obtain rfl : e' = e := some.inj (htarget.symm.trans h)
    rw [hset,overwrite,hdata]
    split_ifs with hin
    · exact iff_of_true (by simp) hin
    · exact iff_of_false (by simp) hin
  · exact absurd (hnone.symm.trans h) (by simp)

theorem Value.bytes_pos (h : v ≠ .blob []) : 0 < v.bytes.length := by
  cases v with
  | string v => simp [Value.bytes]
  | int v => exact Nat.succ_pos 3
  | bool v => exact Nat.succ_pos 0
  | blob v => exact length_pos_iff.mpr fun hnil => h (by rw [show v = [] from hnil])

/-- Calls for a key stay inside the buffer. -/
structure Inside (signedChar : Bool) (s : Store) (key : CString) : Prop where
  configGetString : ∀ default, configGetString signedChar s (some key) default ≠ none
  configGetInt : ∀ default, configGetInt signedChar s (some key) default ≠ none
  configGetBool : ∀ default, configGetBool signedChar s (some key) default ≠ none
  configGetBlob : ∀ maxSize, configGetBlob signedChar s (some key) maxSize ≠ none
  configSetValue : ∀ v alloc,
    (overwriteTarget s (identOf signedChar key) v.bytes.length).isSome = true →
    configSetValue signedChar s key alloc v ≠ none

/-- The first entry of a key is read, and any larger than those before it may be overwritten. -/
structure Bounded (s : Store) (id : Ident) : Prop where
  string : ∀ e, s.entries.find? (Entry.isFor id) = some e → e.type = configTypeString →
    0 ∈ s.data.drop e.offset.toNat
  int : ∀ e, s.entries.find? (Entry.isFor id) = some e → e.type = configTypeInt →
    e.offset.toNat+4 ≤ s.dataSize.toNat
  bool : ∀ e, s.entries.find? (Entry.isFor id) = some e → e.type = configTypeBool →
    e.offset.toNat+1 ≤ s.dataSize.toNat
  size : ∀ l e r, s.entries = l++e::r → e.isFor id = true → 0 < e.size.toNat →
    (∀ x ∈ l, x.isFor id = true → x.size.toNat < e.size.toNat) → e.stop ≤ s.dataSize.toNat

theorem typedEntry_some : typedEntry signedChar s (some key) type = some e ↔
    s.entries.find? (Entry.isFor (identOf signedChar key)) = some e ∧ e.type = type := by
  rw [typedEntry,configFindEntry_bind,filter_eq_some_iff,decide_eq_true_eq]

theorem readData_inside (h : 0 < size) : readData s offset size ≠ none ↔ offset+size ≤
    s.data.length := by
  rw [readData]
  split_ifs with hin
  · exact iff_of_true (by simp) (hin.resolve_left (ne_of_gt h))
  · exact iff_of_false (by simp) fun hle => hin (.inr hle)

theorem configGetString_inside (default : Option Bytes) :
    configGetString signedChar s (some key) default ≠ none ↔
      ∀ e, typedEntry signedChar s (some key) configTypeString = some e →
        0 ∈ s.data.drop e.offset.toNat := by
  rw [configGetString]
  cases typedEntry signedChar s (some key) configTypeString with
  | none => simp
  | some e => simp

theorem configGetInt_inside (default : Int32) :
    configGetInt signedChar s (some key) default ≠ none ↔
      ∀ e, typedEntry signedChar s (some key) configTypeInt = some e →
        e.offset.toNat+4 ≤ s.data.length := by
  rw [configGetInt]
  cases typedEntry signedChar s (some key) configTypeInt with
  | none => simp
  | some e => simpa using readData_inside (Nat.succ_pos 3)

theorem configGetBool_inside (default : Bool) :
    configGetBool signedChar s (some key) default ≠ none ↔
      ∀ e, typedEntry signedChar s (some key) configTypeBool = some e →
        e.offset.toNat+1 ≤ s.data.length := by
  rw [configGetBool]
  cases typedEntry signedChar s (some key) configTypeBool with
  | none => simp
  | some e => simpa using readData_inside (Nat.succ_pos 0)

theorem configGetBlob_inside (h : ∀ e, typedEntry signedChar s (some key) configTypeBlob = some
    e → 0 < e.size.toNat → e.stop ≤ s.data.length) : configGetBlob signedChar s (some key)
    maxSize ≠ none := by
  rw [configGetBlob]
  split_ifs with hmax
  · simp
  · cases hentry : typedEntry signedChar s (some key) configTypeBlob with
    | none => simp
    | some e =>
      have hread : readData s e.offset.toNat (min e.size.toNat maxSize) ≠ none := by
        rcases eq_zero_or_pos e.size.toNat with hzero | hpos
        · simp [readData,hzero]
        · have hstop := h e hentry hpos
          rw [Entry.stop] at hstop
          exact (readData_inside (by omega)).mpr (by omega)
      simpa using hread

theorem overwriteTarget_some (h : overwriteTarget s id len = some e) : ∃ l r, s.entries =
    l++e::r ∧ e.isFor id = true ∧ len ≤ e.size.toNat ∧ ∀ x ∈ l, x.isFor id = true → x.size.toNat
    < e.size.toNat := by
  obtain ⟨htakes,l,r,hs,hl⟩ := find?_eq_some_iff_append.mp h
  obtain ⟨hfor,hsize⟩ := of_decide_eq_true htakes
  refine ⟨l,r,hs,hfor,hsize,fun x hx hxfor => ?_⟩
  have hno : x.takes id len = false := by simpa using hl x hx
  have hsmall : ¬len ≤ x.size.toNat := fun hle => of_decide_eq_false hno ⟨hxfor,hle⟩
  omega

theorem overwriteTarget_larger (hs : s.entries = l++e::r) (hfor : e.isFor id = true)
    (hl : ∀ x ∈ l, x.isFor id = true → x.size.toNat < e.size.toNat) :
    overwriteTarget s id e.size.toNat = some e := by
  refine find?_eq_some_iff_append.mpr ⟨decide_eq_true ⟨hfor,le_rfl⟩,l,r,hs,fun x hx => ?_⟩
  have hno : x.takes id e.size.toNat = false :=
    decide_eq_false fun h => not_le.mpr (hl x hx h.1) h.2
  rw [hno]
  rfl

theorem Inside.stop_le (h : Inside signedChar s key) (hs : s.entries = l++e::r)
    (hfor : e.isFor (identOf signedChar key) = true) (hpos : 0 < e.size.toNat)
    (hl : ∀ x ∈ l, x.isFor (identOf signedChar key) = true → x.size.toNat < e.size.toNat) :
    e.stop ≤ s.data.length := by
  have hlen : (replicate e.size.toNat (0:UInt8)).length = e.size.toNat :=
    length_replicate
  have htarget : overwriteTarget s (identOf signedChar key)
      (Value.blob (replicate e.size.toNat 0)).bytes.length = some e := by
    rw [Value.bytes,hlen]
    exact overwriteTarget_larger hs hfor hl
  have hset := h.configSetValue _ true (by rw [htarget]; rfl)
  rw [configSetValue_eq,if_neg (by simpa using ne_of_gt hpos),
    setEntry_overwrites htarget,Value.bytes,hlen] at hset
  exact hset

theorem Bounded.first (h : Bounded s id) (hfind : s.entries.find? (Entry.isFor id) = some e)
    (hpos : 0 < e.size.toNat) : e.stop ≤ s.dataSize.toNat := by
  obtain ⟨hfor,l,r,hs,hl⟩ := find?_eq_some_iff_append.mp hfind
  refine h.size l e r hs hfor hpos fun x hx hxfor => ?_
  have hno : x.isFor id = false := by simpa using hl x hx
  exact absurd (hxfor.symm.trans hno) (by simp)

theorem Bounded.configSetValue (h : Bounded s (identOf signedChar key))
    (hdata : s.data.length = s.dataSize.toNat) (v : Value) (alloc : Bool)
    (hsome : (overwriteTarget s (identOf signedChar key) v.bytes.length).isSome = true) :
    configSetValue signedChar s key alloc v ≠ none := by
  obtain ⟨e,htarget⟩ := isSome_iff_exists.mp hsome
  rw [configSetValue_eq]
  split_ifs with hv
  · simp
  · obtain ⟨l,r,hs,hfor,hsize,hl⟩ := overwriteTarget_some htarget
    have hpos := Value.bytes_pos hv
    have hstop := h.size l e r hs hfor (by omega) hl
    rw [Entry.stop,←hdata] at hstop
    exact (setEntry_overwrites htarget).mpr (by omega)

/-- A loaded store is used inside its buffer exactly when the entries of the key pass the checks
that the load leaves out. -/
theorem loaded_store_inside_iff (signedChar alloc : Bool) (file : Bytes) (s : Store) (key : CString)
    (hinit : configStoreInit file alloc = some s) :
    Inside signedChar s key ↔ Bounded s (identOf signedChar key) := by
  have hdata := configStoreInit_data hinit
  constructor
  · intro h
    refine ⟨fun e he htype => ?_,fun e he htype => ?_,fun e he htype => ?_,
      fun l e r hs hfor hpos hl => hdata▸h.stop_le hs hfor hpos hl⟩
    · exact (configGetString_inside none).mp (h.configGetString none) e
        (typedEntry_some.mpr ⟨he,htype⟩)
    · rw [←hdata]
      exact (configGetInt_inside 0).mp (h.configGetInt 0) e (typedEntry_some.mpr ⟨he,htype⟩)
    · rw [←hdata]
      exact (configGetBool_inside false).mp (h.configGetBool false) e
        (typedEntry_some.mpr ⟨he,htype⟩)
  · intro h
    refine ⟨fun default => ?_,fun default => ?_,fun default => ?_,fun maxSize => ?_,
      h.configSetValue hdata⟩
    · exact (configGetString_inside default).mpr fun e he =>
        h.string e (typedEntry_some.mp he).1 (typedEntry_some.mp he).2
    · exact (configGetInt_inside default).mpr fun e he =>
        hdata▸h.int e (typedEntry_some.mp he).1 (typedEntry_some.mp he).2
    · exact (configGetBool_inside default).mpr fun e he =>
        hdata▸h.bool e (typedEntry_some.mp he).1 (typedEntry_some.mp he).2
    · exact configGetBlob_inside fun e he hpos => hdata▸h.first (typedEntry_some.mp he).1 hpos

/-- One integer, under `a`, at offset 100 of an empty buffer. -/
def damagedFile : Bytes :=
  toBytes 4 configMagic++le16 configVersion++le16 0++toBytes 4 1++toBytes 4 36++toBytes 4 0++
    entryBytes ⟨177670,1,configTypeInt,100,4⟩

theorem loaded_store_inside_iff_damagedFile : ∃ s, configStoreInit damagedFile true = some s ∧
    (Inside true s keyA ↔ Bounded s (identOf true keyA)) :=
  ⟨_,rfl,loaded_store_inside_iff true true damagedFile _ keyA rfl⟩

theorem damaged_file_read_outside : ∃ s, configStoreInit damagedFile true = some s ∧
    configGetInt true s (some keyA) 0 = none ∧ configSetInt true s (some keyA) 1 true = none :=
  ⟨_,rfl,by decide,by decide⟩

end TinyDeviceOs.ConfigStore
