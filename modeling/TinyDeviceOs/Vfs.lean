import TinyDeviceOs.ArrayLoops
import TinyDeviceOs.CTypes
import TinyDeviceOs.Runs

/-! The mounts of `fs/vfs.c`. A mount stores the first characters of its prefix; the prefix itself
is kept here for the statements about it. -/
namespace TinyDeviceOs.Vfs

open ArrayLoops CTypes Runs List

def maxMounts : ℕ := 8
def vfsNameMax : ℕ := 32
def slash : UInt8 := 47

structure Mount where
  given : CString
  (ops fsData : ℕ)
  deriving DecidableEq

/-- What `strncpy` leaves in the field for the prefix. -/
def Mount.stored (m : Mount) : List UInt8 := m.given.bytes.take (vfsNameMax-1)

structure State where
  mounts : List Mount
  mountCount : ℕ

def vfsInit : State := ⟨[],0⟩

/-- At the end of the prefix a component of the path ends. -/
def fits (path : CString) (m : Mount) : Bool :=
  m.stored <+: path.bytes ∧ (path.bytes[m.stored.length]? = some slash ∨
    path.bytes[m.stored.length]? = none)

def storedLength (m : Mount) : ℕ := m.stored.length

def dropSlash : List UInt8 → List UInt8
  | [] => []
  | x::xs => if x = slash then xs else x::xs

def vfsFindMount (mounts : List Mount) (path : CString) : Option (Mount × List UInt8) :=
  match largest (fits path) storedLength mounts with
  | (none,_) => none
  | (some best,bestLen) => some (best,dropSlash (path.bytes.drop bestLen))

def stores (given : CString) (m : Mount) : Bool := m.stored = given.bytes

/-- No operations are null; `memory` tells whether `calloc` succeeds. -/
def vfsMount (s : State) (given : CString) (ops : Option ℕ) (fsData : ℕ) (memory : Bool) :
    Int32 × State :=
  match ops with
  | none => (-1,s)
  | some ops =>
    if maxMounts ≤ s.mountCount then (-1,s)
    else if s.mounts.any (stores given) then (-1,s)
    else if memory then (0,⟨⟨given,ops,fsData⟩::s.mounts,s.mountCount+1⟩)
    else (-1,s)

def vfsUnmount (s : State) (given : CString) : Int32 × State :=
  if s.mounts.any (stores given) then (0,⟨s.mounts.eraseP (stores given),s.mountCount-1⟩)
  else (-1,s)

def vfsGetMountPoint (mounts : List Mount) (path : CString) : Option (List UInt8) :=
  (vfsFindMount mounts path).map fun found => found.1.stored

inductive Op
  | mount (given : CString) (ops : Option ℕ) (fsData : ℕ) (memory : Bool)
  | unmount (given : CString)

def step (s : State) : Op → State
  | .mount given ops fsData memory => (vfsMount s given ops fsData memory).2
  | .unmount given => (vfsUnmount s given).2

def Whole (given path : List UInt8) : Prop :=
  ∃ rest, path = given++rest ∧
    (given.getLast? = some slash ∨ rest = [] ∨ rest.head? = some slash)

theorem whole_root : Whole [slash] path ↔ path.head? = some slash := by
  constructor
  · rintro ⟨rest,rfl,-⟩
    rfl
  · intro h
    obtain ⟨rest,rfl⟩ := head?_eq_some_iff.mp h
    exact ⟨rest,rfl,.inl rfl⟩

/-- The mount with the longest prefix of a path. -/
structure Longest (mounts : List Mount) (path : CString) (m : Mount) : Prop where
  mem : m ∈ mounts
  whole : Whole m.given.bytes path.bytes
  max : ∀ m' ∈ mounts, Whole m'.given.bytes path.bytes →
    m'.given.bytes.length ≤ m.given.bytes.length

/-- The mount found is the only one with the longest prefix; prefix, slash and relative path are
the path. -/
structure Resolves (mounts : List Mount) (path : CString) : Prop where
  distinct : (mounts.map Mount.given).Nodup
  found : ∀ m, (∃ rel, vfsFindMount mounts path = some (m,rel)) ↔ Longest mounts path m
  joined : ∀ m rel, vfsFindMount mounts path = some (m,rel) →
    m.given.bytes++slash::rel = path.bytes

def isLong (m : Mount) : Bool := vfsNameMax ≤ m.given.bytes.length

/-- No cut prefix is mounted twice or found, and the longest is not empty, not cut, and before a
slash. -/
structure Clear (mounts : List Mount) (path : CString) : Prop where
  once : ((mounts.filter isLong).map Mount.given).Nodup
  cut : ∀ m ∈ mounts, isLong m → fits path m = false
  longest : ∀ m, Longest mounts path m → m.given.bytes ≠ [] ∧ isLong m = false ∧
    m.given.bytes++[slash] <+: path.bytes

section

theorem stored_eq (h : isLong m = false) : m.stored = m.given.bytes := by
  have hlen := of_decide_eq_false h
  rw [vfsNameMax] at hlen
  refine take_of_length_le ?_
  rw [vfsNameMax]
  omega

theorem stored_length_of_long (h : isLong m) : m.stored.length = 31 := by
  have hlen := of_decide_eq_true h
  rw [vfsNameMax] at hlen
  rw [Mount.stored,length_take,vfsNameMax]
  omega

theorem stored_length_le (m : Mount) :
    m.stored.length ≤ 31 ∧ m.stored.length ≤ m.given.bytes.length := by
  rw [Mount.stored,length_take,vfsNameMax]
  omega

theorem fits_iff : fits path m ↔
    path.bytes = m.stored ∨ ∃ rel, path.bytes = m.stored++slash::rel := by
  rw [fits,decide_eq_true_iff]
  constructor
  · rintro ⟨⟨rest,hrest⟩,hend⟩
    rw [←hrest,getElem?_append_right le_rfl,Nat.sub_self,←head?_eq_getElem?] at hend
    rcases hend with hslash | hnil
    · obtain ⟨rel,rfl⟩ := head?_eq_some_iff.mp hslash
      exact .inr ⟨rel,hrest.symm⟩
    · rw [head?_eq_none_iff.mp hnil,append_nil] at hrest
      exact .inl hrest.symm
  · rintro (heq | ⟨rel,heq⟩)
    · rw [heq]
      exact ⟨prefix_rfl,.inr (getElem?_eq_none le_rfl)⟩
    · rw [heq]
      exact ⟨prefix_append _ _,.inl (by simp)⟩

/-- The first mount among those with the longest text. -/
theorem vfsFindMount_cases (mounts : List Mount) (path : CString) :
    vfsFindMount mounts path = none ∧ (∀ m ∈ mounts, fits path m → storedLength m = 0) ∨
      ∃ m, vfsFindMount mounts path = some (m,dropSlash (path.bytes.drop m.stored.length)) ∧
        FirstLargest (fits path) storedLength mounts m := by
  rcases largest_cases (p:=fits path) (f:=storedLength) mounts with ⟨hres,hzero⟩ | ⟨m,hres,hm⟩
  · exact .inl ⟨by rw [vfsFindMount,hres],hzero⟩
  · exact .inr ⟨m,by rw [vfsFindMount,hres,storedLength],hm⟩

theorem vfsFindMount_some (h : vfsFindMount mounts path = some (m,rel)) :
    FirstLargest (fits path) storedLength mounts m ∧
      rel = dropSlash (path.bytes.drop m.stored.length) := by
  rcases vfsFindMount_cases mounts path with ⟨hnone,-⟩ | ⟨m',hsome,hm⟩
  · simp [hnone] at h
  · obtain ⟨rfl,rfl⟩ := Prod.mk.inj (Option.some.inj (hsome.symm.trans h))
    exact ⟨hm,rfl⟩

theorem vfsFindMount_of_fits (hm : m ∈ mounts) (hfits : fits path m) (hne : m.stored ≠ []) :
    ∃ m' rel, vfsFindMount mounts path = some (m',rel) := by
  rcases vfsFindMount_cases mounts path with ⟨-,hzero⟩ | ⟨m',hsome,-⟩
  · exact absurd (length_eq_zero_iff.mp (hzero m hm hfits)) hne
  · exact ⟨m',_,hsome⟩

theorem joined_iff (hfits : fits path m) :
    m.given.bytes++slash::dropSlash (path.bytes.drop m.stored.length) = path.bytes ↔
      isLong m = false ∧ m.given.bytes++[slash] <+: path.bytes := by
  have hle := (stored_length_le m).2
  rcases fits_iff.mp hfits with heq | ⟨rel,heq⟩
  · refine iff_of_false (fun hjoin => ?_) fun ⟨_,hpre⟩ => ?_
    · have hlen := congrArg length hjoin
      rw [heq,length_append,length_cons] at hlen
      omega
    · have hlen := hpre.length_le
      rw [heq,length_append,length_singleton] at hlen
      omega
  · rw [heq,drop_left,dropSlash,if_pos rfl]
    constructor
    · intro hjoin
      have hgiven := append_cancel_right hjoin
      refine ⟨decide_eq_false fun hlong => ?_,rel,?_⟩
      · have hcut := stored_length_of_long (decide_eq_true hlong)
        rw [←hgiven] at hcut
        rw [vfsNameMax] at hlong
        omega
      · rw [hgiven,append_assoc,singleton_append]
    · rintro ⟨hshort,-⟩
      rw [stored_eq hshort]

theorem whole_of_fits (hfits : fits path m) (hshort : isLong m = false) :
    Whole m.given.bytes path.bytes := by
  rw [←stored_eq hshort]
  rcases fits_iff.mp hfits with heq | ⟨rel,heq⟩
  · exact ⟨[],by simpa using heq,.inr (.inl rfl)⟩
  · exact ⟨slash::rel,heq,.inr (.inr rfl)⟩

theorem fits_of_slash (hshort : isLong m = false)
    (hpre : m.given.bytes++[slash] <+: path.bytes) : fits path m := by
  obtain ⟨rel,hrel⟩ := hpre
  refine fits_iff.mpr (.inr ⟨rel,?_⟩)
  rw [stored_eq hshort,←hrel,append_assoc,singleton_append]

theorem Longest.unique (hdistinct : (mounts.map Mount.given).Nodup) (h : Longest mounts path m)
    (h' : Longest mounts path m') : m = m' := by
  have hlen := le_antisymm (h'.max m h.mem h.whole) (h.max m' h'.mem h'.whole)
  obtain ⟨rest,hrest,-⟩ := h.whole
  obtain ⟨rest',hrest',-⟩ := h'.whole
  have hbytes := append_inj_left (hrest.symm.trans hrest') hlen
  exact inj_on_of_nodup_map hdistinct h.mem h'.mem (CString.ext hbytes)

theorem exists_longest (hm : m ∈ mounts) (hwhole : Whole m.given.bytes path.bytes) :
    ∃ m', Longest mounts path m' := by
  classical
  have hne : mounts.toFinset.filter (fun m => Whole m.given.bytes path.bytes) |>.Nonempty :=
    ⟨m,by simpa using ⟨hm,hwhole⟩⟩
  obtain ⟨m',hm',hmax⟩ := Finset.exists_max_image _ (fun m => m.given.bytes.length) hne
  obtain ⟨hmem,hwhole'⟩ : m' ∈ mounts ∧ Whole m'.given.bytes path.bytes := by simpa using hm'
  exact ⟨m',hmem,hwhole',fun x hx hw => hmax x (by simpa using ⟨hx,hw⟩)⟩

end

section

/-- A prefix was compared with what older mounts store. -/
def Ordered (mounts : List Mount) : Prop :=
  mounts.Pairwise fun newer older => older.stored ≠ newer.given.bytes

theorem ordered_step (s : State) (op : Op) (h : Ordered s.mounts) : Ordered (step s op).mounts := by
  cases op with
  | mount given ops fsData memory =>
    cases ops with
    | none => exact h
    | some ops =>
      rw [step,vfsMount]
      split_ifs with hfull hany hmemory
      · exact h
      · exact h
      · refine pairwise_cons.mpr ⟨fun older holder hstored => hany ?_,h⟩
        exact any_eq_true.mpr ⟨older,holder,decide_eq_true hstored⟩
      · exact h
  | unmount given =>
    rw [step,vfsUnmount]
    split_ifs
    · exact h.sublist eraseP_sublist
    · exact h

theorem ordered_run (ops : List Op) : Ordered (after step vfsInit ops).mounts :=
  always (I:=fun s : State => Ordered s.mounts) ordered_step List.Pairwise.nil

theorem Ordered.distinct (h : Ordered mounts)
    (honce : ((mounts.filter isLong).map Mount.given).Nodup) : (mounts.map Mount.given).Nodup := by
  induction mounts with
  | nil => exact nodup_nil
  | cons m mounts ih =>
    obtain ⟨hnew,hold⟩ := pairwise_cons.mp h
    rw [map_cons,nodup_cons]
    rw [filter_cons] at honce
    cases hlong : isLong m with
    | false =>
      rw [hlong,if_neg Bool.false_ne_true] at honce
      refine ⟨fun hmem => ?_,ih hold honce⟩
      obtain ⟨older,holder,hgiven⟩ := mem_map.mp hmem
      have hshort : isLong older = false := by rw [isLong,hgiven,←isLong,hlong]
      exact hnew older holder ((stored_eq hshort).trans (congrArg CString.bytes hgiven))
    | true =>
      rw [hlong,if_pos rfl,map_cons,nodup_cons] at honce
      refine ⟨fun hmem => honce.1 ?_,ih hold honce.2⟩
      obtain ⟨older,holder,hgiven⟩ := mem_map.mp hmem
      refine mem_map.mpr ⟨older,mem_filter.mpr ⟨holder,?_⟩,hgiven⟩
      rw [isLong,hgiven,←isLong,hlong]

theorem Clear.found_longest (h : Clear mounts path)
    (hfound : FirstLargest (fits path) storedLength mounts m) : Longest mounts path m := by
  have hshort : isLong m = false := by
    cases hlong : isLong m with
    | false => rfl
    | true => exact absurd hfound.holds (by simp [h.cut m hfound.mem hlong])
  have hwhole := whole_of_fits hfound.holds hshort
  obtain ⟨top,htop⟩ := exists_longest hfound.mem hwhole
  obtain ⟨-,htopshort,htopslash⟩ := h.longest top htop
  have hle := hfound.le htop.mem (fits_of_slash htopshort htopslash)
  rw [storedLength,storedLength,stored_eq htopshort,stored_eq hshort] at hle
  exact ⟨hfound.mem,hwhole,fun x hx hw => (htop.max x hx hw).trans hle⟩

section

variable (hordered : Ordered mounts)
include hordered

theorem Clear.resolves (h : Clear mounts path) : Resolves mounts path := by
  have hdistinct := hordered.distinct h.once
  refine ⟨hdistinct,fun m => ⟨?_,fun hlongest => ?_⟩,fun m rel hfind => ?_⟩
  · rintro ⟨rel,hfind⟩
    exact h.found_longest (vfsFindMount_some hfind).1
  · obtain ⟨hne,hshort,hslash⟩ := h.longest m hlongest
    have hstored : m.stored ≠ [] := stored_eq hshort ▸ hne
    obtain ⟨m',rel,hfind⟩ := vfsFindMount_of_fits hlongest.mem (fits_of_slash hshort hslash) hstored
    have hlongest' := h.found_longest (vfsFindMount_some hfind).1
    exact ⟨rel,hlongest.unique hdistinct hlongest' ▸ hfind⟩
  · obtain ⟨hfound,rfl⟩ := vfsFindMount_some hfind
    exact (joined_iff hfound.holds).mpr (h.longest m (h.found_longest hfound)).2

/-- A mount whose cut text fits hides all others. -/
theorem Resolves.not_fits (h : Resolves mounts path) (hm : m ∈ mounts) (hlong : isLong m) : fits
    path m = false := by
  refine Bool.eq_false_iff.mpr fun hfits => ?_
  have hlen := stored_length_of_long hlong
  have hne : m.stored ≠ [] := ne_nil_of_length_pos (by omega)
  obtain ⟨found,rel,hfind⟩ := vfsFindMount_of_fits hm hfits hne
  have hjoin := h.joined found rel hfind
  obtain ⟨hfound,rfl⟩ := vfsFindMount_some hfind
  obtain ⟨hshort,-⟩ := (joined_iff hfound.holds).mp hjoin
  have hle := hfound.le hm hfits
  rw [storedLength,storedLength] at hle
  have heq : m.stored = found.stored := by
    have hpre := (of_decide_eq_true hfits).1
    have hpre' := (of_decide_eq_true hfound.holds).1
    refine (prefix_of_prefix_length_le hpre hpre' hle).eq_of_length ?_
    have := (stored_length_le found).1
    omega
  obtain ⟨l,r,rfl,hl,-⟩ := hfound.split
  rcases mem_append.mp hm with hm | hm
  · have hlt := hl m hm hfits
    rw [storedLength,storedLength,heq] at hlt
    exact absurd hlt (lt_irrefl _)
  rcases mem_cons.mp hm with rfl | hm
  · simp [hshort] at hlong
  · have hpair := (pairwise_cons.mp (pairwise_append.mp hordered).2.1).1 m hm
    exact hpair (heq.trans (stored_eq hshort))

theorem Resolves.clear (h : Resolves mounts path) : Clear mounts path where
  once := h.distinct.sublist (filter_sublist.map _)
  cut := fun _ hm hlong => h.not_fits hordered hm hlong
  longest := by
    intro m hlongest
    obtain ⟨rel,hfind⟩ := (h.found m).mpr hlongest
    have hjoin := h.joined m rel hfind
    obtain ⟨hfound,rfl⟩ := vfsFindMount_some hfind
    obtain ⟨hshort,hslash⟩ := (joined_iff hfound.holds).mp hjoin
    have hpos := hfound.pos
    rw [storedLength,stored_eq hshort] at hpos
    exact ⟨ne_nil_of_length_pos hpos,hshort,hslash⟩

theorem Clear.mountPoint (h : Clear mounts path) : vfsGetMountPoint mounts path = some p ↔ ∃ m,
    Longest mounts path m ∧ m.given.bytes = p := by
  have hfound := (h.resolves hordered).found
  have hstored : ∀ m, Longest mounts path m → m.stored = m.given.bytes :=
    fun m hlongest => stored_eq (h.longest m hlongest).2.1
  rw [vfsGetMountPoint,Option.map_eq_some_iff]
  constructor
  · rintro ⟨⟨m,rel⟩,hfind,rfl⟩
    have hlongest := (hfound m).mp ⟨rel,hfind⟩
    exact ⟨m,hlongest,(hstored m hlongest).symm⟩
  · rintro ⟨m,hlongest,rfl⟩
    obtain ⟨rel,hfind⟩ := (hfound m).mpr hlongest
    exact ⟨(m,rel),hfind,hstored m hlongest⟩

end

end

/-- After every run of mounts and unmounts, a path is resolved as it should be if and only if the
state is clear for it. -/
theorem resolves_iff_clear (ops : List Op) (path : CString) :
    Resolves (after step vfsInit ops).mounts path ↔ Clear (after step vfsInit ops).mounts path :=
  ⟨Resolves.clear (ordered_run ops),Clear.resolves (ordered_run ops)⟩

def root : CString := CString.ofArray [slash]
def file : CString := CString.ofArray [slash,97]

def longPrefix : CString := CString.ofArray (slash::replicate 31 97)

theorem mountPoint_root : ∃ m, Longest [⟨root,1,0⟩] (.ofArray [slash,slash]) m ∧
    m.given.bytes = [slash] :=
  (Clear.mountPoint (pairwise_singleton _ _) ⟨by decide,by decide,fun m hm => by
    obtain rfl := mem_singleton.mp hm.mem
    decide⟩).mp (by decide)

theorem root_not_found_and_long_mounted_twice :
    let rooted := (after step vfsInit [.mount root (some 1) 0 true]).mounts
    let doubled := (after step vfsInit
      [.mount longPrefix (some 1) 0 true,.mount longPrefix (some 2) 0 true]).mounts
    Longest rooted file ⟨root,1,0⟩ ∧ vfsFindMount rooted file = none ∧ ¬Resolves rooted file ∧
      doubled = [⟨longPrefix,2,0⟩,⟨longPrefix,1,0⟩] ∧ ¬Resolves doubled file := by
  have hlongest : Longest (after step vfsInit [.mount root (some 1) 0 true]).mounts file
      ⟨root,1,0⟩ := by
    refine ⟨by decide,whole_root.mpr rfl,fun m' hm' _ => ?_⟩
    obtain rfl := mem_singleton.mp hm'
    exact le_rfl
  refine ⟨hlongest,by decide,fun h => ?_,by decide,fun h => ?_⟩
  · obtain ⟨rel,hfind⟩ := (h.found _).mpr hlongest
    exact absurd (Option.isSome_of_mem hfind) (by decide)
  · exact absurd h.distinct (by decide)

end TinyDeviceOs.Vfs
