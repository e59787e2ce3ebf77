import TinyDeviceOs.CTypes
import TinyDeviceOs.HostSession
import TinyDeviceOs.Regions
import TinyDeviceOs.Runs

/-! Tagged fields in memory: a buffer that `link_tlv_put` fills is an association list, and the
readers of both sides agree on every byte string. -/
namespace TinyDeviceOs.LinkTlv

open LittleEndian LinkFrame CTypes HostSession Regions Runs List

/-- No object is larger than half of the values of `size_t`. -/
structure Capacity (m : DataModel) where
  size : ℕ
  fits : 2*size < m.sizeLimit

/-- The memory from `buf` on, and `*used`. -/
structure TlvBuf where
  mem : ℕ → UInt8
  used : ℕ

/-- A value may be `NULL`. -/
structure Put where
  tag : UInt8
  value : Option Bytes
  len : UInt8
  readable : ∀ v ∈ value, v.length = len.toNat

/-- Nothing if the value is `NULL`. -/
def Put.bytes (p : Put) : Bytes := p.value.getD []

/-- The buffer after it, and what it stored; `none` is `-1`. -/
def linkTlvPutMem {m : DataModel} (cap : Capacity m) (b : TlvBuf) (p : Put) :
    TlvBuf × Option (List (ℕ × Bytes)) :=
  if 0 < p.len ∧ p.value = none then (b,none)
  else if cap.size < (b.used+2+p.len.toNat) % m.sizeLimit then (b,none)
  else
    let log := [(b.used,[p.tag]),(b.used+1,[p.len]),(b.used+2,p.bytes)]
    (⟨replay b.mem log,(b.used+2+p.len.toNat) % m.sizeLimit⟩,some log)

variable {m : DataModel} (cap : Capacity m)

def putStep (b : TlvBuf) (p : Put) : TlvBuf := (linkTlvPutMem cap b p).1

def accepted : TlvBuf → List Put → List Put
  | _,[] => []
  | b,p::ps =>
    if (linkTlvPutMem cap b p).2.isSome then p::accepted (putStep cap b p) ps
    else accepted (putStep cap b p) ps

def TlvBuf.contents (b : TlvBuf) : Bytes := (range b.used).map b.mem

/-- All if it fails, and all from the capacity on. -/
structure Contained (b : TlvBuf) (p : Put) : Prop where
  failed : (linkTlvPutMem cap b p).2 = none → (putStep cap b p).used = b.used ∧
    (putStep cap b p).contents = b.contents
  below : ∀ log ∈ (linkTlvPutMem cap b p).2, ∀ x ∈ log, x.1+x.2.length ≤ cap.size

/-- The first field with the tag, if there is room for it. -/
def lookup (fields : List Put) (tag : UInt8) (room : ℕ) : Option Bytes :=
  (fields.find? fun p => p.tag = tag).bind fun p =>
    if p.bytes.length ≤ room then some p.bytes else none

def Put.field (p : Put) : Bytes := p.tag::UInt8.ofNat p.bytes.length::p.bytes

theorem bytes_length (p : Put) (h : ¬(0 < p.len ∧ p.value = none)) :
    p.bytes.length = p.len.toNat := by
  rw [Put.bytes]
  cases hv : p.value with
  | some v => exact p.readable v hv
  | none =>
    have hzero : ¬0 < p.len := fun hpos => h ⟨hpos,hv⟩
    have hlen : p.len = 0 := by grind
    rw [hlen]
    rfl

theorem linkTlvGet_fields (h : ∀ p ∈ fields, p.bytes.length ≤ 255) : linkTlvGet tag room
    (fields.flatMap Put.field) = lookup fields tag room := by
  induction fields with
  | nil => exact linkTlvGet_nil tag room
  | cons p fields ih =>
    have hp := h p mem_cons_self
    have hrest := ih fun q hq => h q (mem_cons_of_mem p hq)
    rw [flatMap_cons,Put.field,cons_append,cons_append,
      linkTlvGet_field tag room p.bytes _ hp,hrest,lookup,lookup]
    by_cases ht : p.tag = tag
    · rw [if_pos ht,find?_cons_of_pos (by simpa using ht),Option.bind_some]
      by_cases hroom : p.bytes.length ≤ room
      · rw [if_pos hroom,if_neg (by omega)]
      · rw [if_neg hroom,if_pos (by omega)]
    · rw [if_neg ht,find?_cons_of_neg (by simpa using ht)]

section

variable {cap} {b : TlvBuf} {p : Put}

/-- The buffer holds these fields, within its capacity. -/
structure Holds (cap : Capacity m) (b : TlvBuf) (fields : List Put) : Prop where
  contents : b.contents = fields.flatMap Put.field
  used : b.used ≤ cap.size
  short : ∀ p ∈ fields, p.bytes.length ≤ 255

theorem holds_empty : Holds cap ⟨mem,0⟩ [] :=
  ⟨rfl,Nat.zero_le _,fun _ h => absurd h not_mem_nil⟩

theorem sum_lt (h : b.used ≤ cap.size) (p : Put) :
    (b.used+2+p.len.toNat) % m.sizeLimit = b.used+2+p.len.toNat := by
  have hfits := cap.fits
  have hlimit := m.le_sizeLimit
  have hlen := p.len.toNat_lt
  exact Nat.mod_eq_of_lt (by omega)

theorem put_cases (h : b.used ≤ cap.size) (p : Put) :
    linkTlvPutMem cap b p = (b,none) ∨
      (p.bytes.length = p.len.toNat ∧ b.used+2+p.bytes.length ≤ cap.size ∧
        linkTlvPutMem cap b p = (⟨put b.mem b.used p.field,b.used+2+p.bytes.length⟩,
          some [(b.used,[p.tag]),(b.used+1,[p.len]),(b.used+2,p.bytes)])) := by
  rw [linkTlvPutMem,sum_lt h]
  by_cases hnull : 0 < p.len ∧ p.value = none
  · rw [if_pos hnull]
    exact .inl rfl
  have hlen := bytes_length p hnull
  rw [if_neg hnull,←hlen]
  by_cases hfull : cap.size < b.used+2+p.bytes.length
  · rw [if_pos hfull]
    exact .inl rfl
  rw [if_neg hfull]
  refine .inr ⟨rfl,not_lt.mp hfull,?_⟩
  have hfield : p.field = [p.tag]++[p.len]++p.bytes := by
    rw [Put.field,hlen,UInt8.ofNat_toNat]
    rfl
  have hstores : replay b.mem [(b.used,[p.tag]),(b.used+1,[p.len]),(b.used+2,p.bytes)] =
      put b.mem b.used p.field := by
    rw [hfield,←put_append,←put_append]
    rfl
  dsimp only
  rw [hstores]

theorem contents_put : TlvBuf.contents ⟨put mem used xs,used+xs.length⟩ = TlvBuf.contents
    ⟨mem,used⟩++xs := by
  rw [TlvBuf.contents,TlvBuf.contents,range_add,map_append,map_map]
  congr 1
  · refine map_congr_left fun i hi => put_outside ?_
    have := mem_range.mp hi
    omega
  · apply ext_getElem
    · simp
    · intro i _ hi
      have hinside : used ≤ used+i ∧ used+i < used+xs.length := by omega
      rw [getElem_map,getElem_range,Function.comp_apply]
      change put mem used xs (used+i) = xs[i]
      rw [put_inside mem hinside,Nat.add_sub_cancel_left,getD_eq_getElem _ _ hi]

theorem Holds.step (h : Holds cap b fields) (p : Put) :
    Contained cap b p ∧ Holds cap (putStep cap b p)
      (fields++if (linkTlvPutMem cap b p).2.isSome then [p] else []) := by
  rcases put_cases h.used p with hput | ⟨hlen,hroom,hput⟩
  · have hstep : putStep cap b p = b := congrArg Prod.fst hput
    refine ⟨⟨fun _ => by rw [hstep]; exact ⟨rfl,rfl⟩,fun log hlog => ?_⟩,?_⟩
    · rw [hput] at hlog
      cases hlog
    · rw [hstep,hput]
      simpa using h
  · have hstep : putStep cap b p = ⟨put b.mem b.used p.field,b.used+2+p.bytes.length⟩ :=
      congrArg Prod.fst hput
    refine ⟨⟨fun hnone => ?_,fun log hlog x hx => ?_⟩,?_⟩
    · rw [hput] at hnone
      cases hnone
    · rw [hput] at hlog
      cases hlog
      simp only [mem_cons,not_mem_nil,or_false] at hx
      rcases hx with rfl | rfl | rfl
      · change b.used+1 ≤ cap.size
        omega
      · change b.used+1+1 ≤ cap.size
        omega
      · exact hroom
    · rw [hstep,hput]
      have hsize : b.used+2+p.bytes.length = b.used+p.field.length := by
        rw [Put.field,length_cons,length_cons]
        omega
      refine ⟨?_,hroom,fun q hq => ?_⟩
      · rw [hsize,contents_put,flatMap_append]
        exact congrArg₂ (·++·) h.contents (append_nil _).symm
      · rcases mem_append.mp hq with hq | hq
        · exact h.short q hq
        · obtain rfl : q = p := by simpa using hq
          rw [hlen]
          exact Nat.lt_succ_iff.mp q.len.toNat_lt

theorem Holds.run (h : Holds cap b fields) (puts : List Put) :
    Each (putStep cap) (Contained cap) b puts ∧
      Holds cap (after (putStep cap) b puts) (fields++accepted cap b puts) := by
  induction puts generalizing b fields with
  | nil => exact ⟨trivial,by rwa [accepted,append_nil]⟩
  | cons p puts ih =>
    obtain ⟨hkept,hnext⟩ := h.step p
    obtain ⟨heach,hlast⟩ := ih hnext
    refine ⟨⟨hkept,heach⟩,?_⟩
    rw [append_assoc] at hlast
    rw [after_cons,accepted]
    split_ifs at hlast ⊢
    · exact hlast
    · exact hlast

end

theorem tlvGetFrom_length (h : tlvGetFrom buf tag i = some value) : value.length ≤ 255 := by
  induction hn : buf.length-i using Nat.strong_induction_on generalizing i with
  | _ n ih =>
    rw [tlvGetFrom] at h
    dsimp only at h
    split_ifs at h with hi hfit ht
    · obtain rfl := Option.some.inj h
      rw [length_take]
      exact (min_le_left _ _).trans (Nat.lt_succ_iff.mp (UInt8.toNat_lt _))
    · exact ih _ (by omega) h rfl

theorem linkTlvGet_tlvGet (buf : Bytes) (tag : UInt8) :
    linkTlvGet tag 255 buf = tlvGet buf tag := by
  apply Option.ext
  intro value
  rw [linkTlvGet_eq_some]
  exact and_iff_left_of_imp tlvGetFrom_length

/-- Puts write below the capacity, and nowhere if they fail; what is found is the first accepted
field with the tag, by the host as well. -/
theorem tlv_association_list (cap : Capacity m) (mem : ℕ → UInt8) (puts : List Put) :
    Each (putStep cap) (Contained cap) ⟨mem,0⟩ puts ∧
      (∀ tag room, linkTlvGet tag room (after (putStep cap) ⟨mem,0⟩ puts).contents =
        lookup (accepted cap ⟨mem,0⟩ puts) tag room) ∧
      ∀ buf tag, linkTlvGet tag 255 buf = tlvGet buf tag := by
  obtain ⟨heach,hholds⟩ := holds_empty.run puts
  refine ⟨heach,fun tag room => ?_,linkTlvGet_tlvGet⟩
  rw [hholds.contents]
  exact linkTlvGet_fields hholds.short

end TinyDeviceOs.LinkTlv
