import TinyDeviceOs.ConfigLayout
import TinyDeviceOs.Runs

/-! The store as a map from keys to typed values, over keys that it can tell apart. -/
namespace TinyDeviceOs.ConfigStore

open LittleEndian Regions List Option Function

/-- No next state after an access outside the memory. -/
def step (signedChar : Bool) (s : Option Store) (op : CString × Change) : Option Store :=
  s.bind fun s => (op.2.apply signedChar s op.1).map Prod.snd

/-- The value of the last set, unless deleted since. -/
def mapStep (m : CString → Option Value) (op : CString × Change) : CString → Option Value :=
  match op.2 with
  | .set value _ => update m op.1 (some value)
  | .delete => update m op.1 none

def lastValue (ops : List (CString × Change)) : CString → Option Value :=
  Runs.after mapStep (fun _ => none) ops

/-- Memory can be had, and a setter does not return -1. -/
def Succeeds (signedChar : Bool) (s : Option Store) (op : CString × Change) : Prop :=
  ∀ value alloc, op.2 = .set value alloc → alloc = true ∧
    (s.bind fun s => op.2.apply signedChar s op.1).map Prod.fst ≠ some false

/-- The value if it has the type, and the default if not. -/
def stringOr (default : Option Bytes) : Option Value → Option Bytes
  | some (.string v) => some v.bytes
  | _ => default

def intOr (default : Int32) : Option Value → Int32
  | some (.int v) => v
  | _ => default

def boolOr (default : Bool) : Option Value → Bool
  | some (.bool v) => v
  | _ => default

def blobOr (maxSize : ℕ) : Option Value → Option Bytes
  | some (.blob v) => some (v.take maxSize)
  | _ => none

structure Reads (signedChar : Bool) (s : Store) (key : CString) (v : Option Value) : Prop where
  configExists : configExists signedChar s (some key) = v.isSome
  configGetString : ∀ default,
    configGetString signedChar s (some key) default = some (stringOr default v)
  configGetInt : ∀ default, configGetInt signedChar s (some key) default = some (intOr default v)
  configGetBool : ∀ default, configGetBool signedChar s (some key) default = some (boolOr default v)
  configGetBlob : ∀ maxSize, maxSize ≠ 0 →
    configGetBlob signedChar s (some key) maxSize = some (blobOr maxSize v)

/-- The layout of the entries. -/
structure LaidOut (s : Store) : Prop where
  inside : ∀ e ∈ s.entries, e.offset.toNat+e.size.toNat ≤ s.dataSize.toNat
  disjoint : s.entries.Pairwise fun e e' => e.offset.toNat+e.size.toNat ≤ e'.offset.toNat ∨
    e'.offset.toNat+e'.size.toNat ≤ e.offset.toNat
  int : ∀ e ∈ s.entries, e.type = configTypeInt → e.size = 4
  bool : ∀ e ∈ s.entries, e.type = configTypeBool → e.size = 1
  string : ∀ e ∈ s.entries, e.type = configTypeString →
    s.data[e.offset.toNat+e.size.toNat-1]? = some 0 ∧ e.size ≠ 0
  count : s.entries.length ≤ 1024
  dataSize : s.dataSize.toNat ≤ 65536
  allocated : s.data.length = s.dataSize.toNat

variable {s s' : Store} {id : Ident} {type : UInt16} {value : Bytes} {i : ℕ} {e : Entry}
  {l r : List Entry} {signedChar : Bool} {key : CString}

def Distinct (s : Store) : Prop :=
  s.entries.Pairwise fun e e' => ¬(e.keyHash = e'.keyHash ∧ e.keyLen = e'.keyLen)

/-- What the setters keep of a store that was new. -/
structure Kept (s : Store) : Prop extends Sound s where
  distinct : Distinct s
  capacity : s.capacity = 1024

theorem same_key_of_isFor {e' : Entry} (h : e.isFor id = true) (h' : e'.isFor id = true) :
    e.keyHash = e'.keyHash ∧ e.keyLen = e'.keyLen := by
  simp only [Entry.isFor,decide_eq_true_eq] at h h'
  exact ⟨h.1.trans h'.1.symm,UInt16.toNat_inj.mp (h.2.trans h'.2.symm)⟩

section

variable (h : Kept s) (hs : s.entries = l++e::r)
include h hs

theorem Kept.remove : Kept (removeEntry s l.length) :=
  ⟨h.toSound.remove hs,h.distinct.sublist (removeEntry_sublist hs),h.capacity⟩

theorem lookup_remove_self (he : e.isFor id = true) : lookup (removeEntry s l.length) id = none := by
  have hnone : (l++r).find? (Entry.isFor id) = none := by
    refine find?_eq_none.mpr fun x hx hfor => ?_
    have hdistinct := h.distinct
    rw [Distinct,hs,pairwise_append] at hdistinct
    rcases mem_append.mp hx with hx | hx
    · exact hdistinct.2.2 x hx e mem_cons_self (same_key_of_isFor hfor he)
    · exact (pairwise_cons.mp hdistinct.2.1).1 x hx (same_key_of_isFor he hfor)
  rw [lookup,removeEntry_entries hs,hnone]
  rfl

theorem Kept.overwritten (hsize : value.length ≤ e.size.toNat) (htyped : Typed type value) :
    Kept (overwritten s l r e type value) := by
  refine ⟨h.toSound.overwritten hs hsize htyped,?_,h.capacity⟩
  have hdistinct := h.distinct
  rw [Distinct,hs,pairwise_append,pairwise_cons] at hdistinct
  obtain ⟨hl,⟨her,hr⟩,hlr⟩ := hdistinct
  refine pairwise_append.mpr ⟨hl,pairwise_cons.mpr ⟨her,hr⟩,fun x hx y hy => ?_⟩
  rcases mem_cons.mp hy with rfl | hy
  · exact hlr x hx e mem_cons_self
  · exact hlr x hx y (mem_cons_of_mem e hy)

end

theorem Kept.added (h : Kept s) (hfull : ¬Full s value) (htyped : Typed type value)
    (hid : id.len < 65536) (hnone : configFindEntry s id = none) : Kept (added s id type value) := by
  have hother : ∀ x ∈ s.entries, x.isFor id = false := findIdx?_eq_none_iff.mp hnone
  have hnew : (newEntry s id type value).isFor id = true := by
    simpa [Entry.isFor,newEntry] using hid
  have hroom : s.entries.length < s.capacity := by
    rw [Full] at hfull
    rw [h.capacity]
    omega
  refine ⟨h.toSound.added hfull hroom htyped,?_,h.capacity⟩
  refine pairwise_append.mpr ⟨h.distinct,pairwise_singleton _ _,fun x hx y hy hsame => ?_⟩
  rw [mem_singleton.mp hy] at hsame
  have hfor : x.isFor id = true := by
    simp only [Entry.isFor,decide_eq_true_eq] at hnew ⊢
    rwa [hsame.1,hsame.2]
  exact absurd (hfor.symm.trans (hother x hx)) (by simp)

variable (id) in
/-- A setter stays in the memory, and a success gives the key the value. -/
theorem setEntry_kept (h : Kept s) (htyped : Typed type value) (hid : id.len < 65536) :
    setEntry id type value true s.entries.length s ≠ none ∧
      ∀ s', setEntry id type value true s.entries.length s = some (true,s') →
        Kept s' ∧ lookup s' id = some (type,value) := by
  refine setEntry_induction (P:=Kept) (Q:=fun r => r ≠ none ∧ ∀ s', r = some (true,s') →
    Kept s' ∧ lookup s' id = some (type,value)) ?_ ?_ ?_ h le_rfl
  · intro t ht hnone
    rcases addEntry_cases id type value true ht.intact.size with
      ⟨-,hr⟩ | ⟨hfull,⟨hcap,-⟩ | ⟨-,⟨-,hr⟩ | ⟨hno,-⟩⟩⟩
    · rw [hr]
      exact ⟨by simp,by simp⟩
    · rw [ht.capacity] at hcap
      exact absurd (.inl hcap) hfull
    · rw [hr]
      refine ⟨by simp,fun u hu => ?_⟩
      obtain rfl : ConfigStore.added t id type value = u := by simpa using hu
      exact ⟨ht.added hfull htyped hid hnone,lookup_added_self ht.intact hfull hid hnone⟩
    · cases hno
  · intro t l e r ht hs hfor hl hsize
    rw [overwrite_eq ht.intact hs hsize]
    refine ⟨by simp,fun u hu => ?_⟩
    obtain rfl : ConfigStore.overwritten t l r e type value = u := by simpa using hu
    exact ⟨ht.overwritten hs hsize htyped,lookup_overwritten_self hfor hl hsize⟩
  · exact fun t l e r ht hs _ _ => ht.remove hs

def Value.cell (v : Value) : UInt16 × Bytes := (v.type,v.bytes)

section

variable {v : Value}

theorem takeWhile_noNul (v : CString) : (v.bytes++[0]).takeWhile (· ≠ 0) = v.bytes := by
  rw [takeWhile_append_of_pos]
  · simp
  · intro x hx
    have hne : x ≠ 0 := fun h => v.noNul (h▸hx)
    simp [hne]

theorem asString_cell (default : Option Bytes) :
    asString (some v.cell) default = stringOr default (some v) := by
  cases v with
  | string v =>
    change some _ = some _
    exact congrArg some (takeWhile_noNul v)
  | _ => rfl

theorem asInt_cell (default : Int32) : asInt (some v.cell) default = intOr default (some v) := by
  cases v with
  | int v =>
    change (UInt32.ofNat (ofBytes (toBytes 4 v.toUInt32.toNat))).toInt32 = v
    have hlt : v.toUInt32.toNat < 256^4 := v.toUInt32.toNat_lt
    rw [ofBytes_toBytes,Nat.mod_eq_of_lt hlt,UInt32.ofNat_toNat,Int32.toInt32_toUInt32]
  | _ => rfl

theorem asBool_cell (default : Bool) : asBool (some v.cell) default = boolOr default (some v) := by
  cases v with
  | bool v => cases v <;> rfl
  | _ => rfl

theorem asBlob_cell (h : maxSize ≠ 0) : asBlob (some v.cell) maxSize = blobOr maxSize (some v) := by
  rw [asBlob,if_neg h]
  cases v <;> rfl

theorem reads_of_lookup {v : Option Value} (h : Intact s)
    (hlook : lookup s (identOf signedChar key) = v.map Value.cell) : Reads signedChar s key v := by
  refine ⟨?_,fun default => ?_,fun default => ?_,fun default => ?_,fun maxSize hmax => ?_⟩
  · rw [configExists_eq,hlook,isSome_map]
  · rw [configGetString_eq h,hlook]
    cases v with
    | none => rfl
    | some v => rw [map_some,asString_cell]
  · rw [configGetInt_eq h,hlook]
    cases v with
    | none => rfl
    | some v => rw [map_some,asInt_cell]
  · rw [configGetBool_eq h,hlook]
    cases v with
    | none => rfl
    | some v => rw [map_some,asBool_cell]
  · rw [configGetBlob_eq h,hlook]
    cases v with
    | none => simp [asBlob,bytesOf,blobOr]
    | some v => rw [map_some,asBlob_cell hmax]

end

theorem Kept.laidOut (h : Kept s) : LaidOut s := by
  have hin := h.intact.inside
  have hsize (e : Entry) (he : e ∈ s.entries) := content_length h.intact he
  refine ⟨?_,h.intact.apart,fun e he ht => ?_,fun e he ht => ?_,fun e he ht => ?_,h.count,h.dataSize,
    h.intact.size⟩
  · rw [←h.intact.size]
    exact hin
  · exact UInt32.toNat_inj.mp ((hsize e he).symm.trans ((h.intact.typed e he).int ht))
  · exact UInt32.toNat_inj.mp ((hsize e he).symm.trans ((h.intact.typed e he).bool ht))
  · have hlast := (h.intact.typed e he).string ht
    rw [getLast?_eq_getElem?,hsize e he,Store.content,slice_getElem?] at hlast
    split_ifs at hlast with hpos
    refine ⟨?_,fun hzero => ?_⟩
    · rw [←hlast]
      congr 1
      omega
    · rw [hzero] at hpos
      exact absurd hpos (by decide)

section

variable {keys : Set CString} {m : CString → Option Value} {op : CString × Change}

/-- The store holds the map, as far as the keys go. -/
structure Holds (signedChar : Bool) (keys : Set CString) (s : Store) (m : CString → Option Value) :
    Prop where
  kept : Kept s
  values : ∀ k ∈ keys, lookup s (identOf signedChar k) = (m k).map Value.cell

theorem fresh_holds : Holds signedChar keys fresh fun _ => none where
  kept := ⟨fresh_sound,List.Pairwise.nil,rfl⟩
  values := fun _ _ => rfl

theorem not_collides (hlen : key.bytes.length < 65536) (hne : identOf signedChar key ≠ identOf
    signedChar k) : ¬(identOf signedChar key).Collides (identOf signedChar k) := by
  rintro ⟨hhash,hl⟩
  have hmod : key.bytes.length % 65536 = key.bytes.length := Nat.mod_eq_of_lt hlen
  exact hne (congrArg₂ Ident.mk hhash (hl.trans hmod).symm)

theorem Holds.update (h : Holds signedChar keys s m) (hkey : key ∈ keys)
    (hlen : key.bytes.length < 65536) (hinj : Set.InjOn (identOf signedChar) keys) {v : Option Value}
    (hkept : Kept s') (hself : lookup s' (identOf signedChar key) = v.map Value.cell)
    (hframe : ∀ other, ¬(identOf signedChar key).Collides other → lookup s' other = lookup s other) :
    Holds signedChar keys s' (update m key v) := by
  refine ⟨hkept,fun k hk => ?_⟩
  by_cases hne : k = key
  · rw [hne,update_self,hself]
  · rw [update_of_ne hne,←h.values k hk]
    exact hframe _ (not_collides hlen fun heq => hne (hinj hkey hk heq).symm)

theorem Holds.step (h : Holds signedChar keys s m) (hkey : op.1 ∈ keys)
    (hlen : op.1.bytes.length < 65536) (hinj : Set.InjOn (identOf signedChar) keys)
    (hop : Succeeds signedChar (some s) op) :
    ∃ s', step signedChar (some s) op = some s' ∧ Holds signedChar keys s' (mapStep m op) := by
  obtain ⟨key,c⟩ := op
  cases c with
  | set v alloc =>
    obtain ⟨rfl,hnot⟩ := hop v alloc rfl
    have hset := setEntry_kept (identOf signedChar key) h.kept v.typed hlen
    dsimp only [bind_some] at hnot
    by_cases hblob : v = .blob []
    · rw [Change.apply,configSetValue_eq,if_pos hblob] at hnot
      exact absurd rfl hnot
    · have heq : Change.apply signedChar s key (.set v true) =
          setEntry (identOf signedChar key) v.type v.bytes true s.entries.length s := by
        rw [Change.apply,configSetValue_eq,if_neg hblob]
      obtain ⟨⟨b,s'⟩,hs'⟩ := ne_none_iff_exists'.mp hset.1
      cases b with
      | false =>
        rw [heq,hs'] at hnot
        exact absurd rfl hnot
      | true =>
        obtain ⟨hkept,hself⟩ := hset.2 s' hs'
        refine ⟨s',by simp [ConfigStore.step,heq,hs'],?_⟩
        exact h.update hkey hlen hinj hkept hself (setEntry_frame h.kept.intact v.typed hs').2
  | delete =>
    cases hfind : configFindEntry s (identOf signedChar key) with
    | none =>
      have hlook : lookup s (identOf signedChar key) = none := by
        rw [lookup,find?_eq_none.mpr]
        · rfl
        · simpa using findIdx?_eq_none_iff.mp hfind
      refine ⟨s,by simp [ConfigStore.step,Change.apply,configDelete,hfind],?_⟩
      exact h.update hkey hlen hinj h.kept hlook fun _ _ => rfl
    | some i =>
      obtain ⟨l,e,r,hs,rfl,hfor,-⟩ := configFindEntry_some hfind
      refine ⟨removeEntry s l.length,by simp [ConfigStore.step,Change.apply,configDelete,hfind],?_⟩
      exact h.update hkey hlen hinj (h.kept.remove hs) (lookup_remove_self h.kept hs hfor)
        fun other hother => lookup_remove hs (not_isFor_of_isFor hother hfor)

/-- Over keys that it can tell apart the store is a map, in every run in which the setters
succeed. -/
theorem store_refines_map (signedChar : Bool) (keys : Set CString)
    (hlen : ∀ k ∈ keys, k.bytes.length < 65536) (hinj : Set.InjOn (identOf signedChar) keys)
    (ops : List (CString × Change)) (hkeys : ∀ op ∈ ops, op.1 ∈ keys)
    (hops : Runs.Each (step signedChar) (Succeeds signedChar) (configStoreInit [] true) ops) :
    ∃ s, Runs.after (step signedChar) (configStoreInit [] true) ops = some s ∧ LaidOut s ∧
      ∀ k ∈ keys, Reads signedChar s k (lastValue ops k) := by
  have hrun : ∃ s, Runs.after (ConfigStore.step signedChar) (configStoreInit [] true) ops = some s ∧
      Holds signedChar keys s (lastValue ops) := by
    induction ops using reverseRecOn with
    | nil => exact ⟨fresh,configStoreInit_nil,fresh_holds⟩
    | append_singleton ops op ih =>
      obtain ⟨hbefore,hlast⟩ := Runs.each_append.mp hops
      obtain ⟨s,hs,hholds⟩ := ih (fun op hop => hkeys op (mem_append_left _ hop)) hbefore
      have hkey := hkeys op (mem_append_right _ mem_cons_self)
      rw [hs] at hlast
      obtain ⟨s',hs',hholds'⟩ := hholds.step hkey (hlen op.1 hkey) hinj hlast.1
      refine ⟨s',?_,?_⟩
      · rw [Runs.after_append,hs]
        exact hs'
      · rw [lastValue,Runs.after_append]
        exact hholds'
  obtain ⟨s,hs,hholds⟩ := hrun
  exact ⟨s,hs,hholds.kept.laidOut,fun k hk => reads_of_lookup hholds.kept.intact (hholds.values k hk)⟩

/-- A number, a string that needs more room, and a shorter one. -/
def sampleOps : List (CString × Change) :=
  [(keyA,.set (.int 5) true),(keyA,.set (.string ⟨[104,101,108,108,111],by decide⟩) true),
    (keyA,.set (.string ⟨[104,105],by decide⟩) true)]

theorem store_refines_map_sample : ∃ s,
    Runs.after (step true) (configStoreInit [] true) sampleOps = some s ∧ LaidOut s ∧
      ∀ k ∈ ({keyA} : Set CString), Reads true s k (lastValue sampleOps k) := by
  refine store_refines_map true {keyA} ?_ (Set.injOn_singleton _ _) sampleOps ?_ ?_
  · rintro k rfl
    decide
  · simp [sampleOps]
  · refine ⟨?_,?_,?_,trivial⟩
    all_goals
      intro value alloc hop
      cases hop
      exact ⟨rfl,by decide⟩

end

end TinyDeviceOs.ConfigStore
