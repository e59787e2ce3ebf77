import TinyDeviceOs.HostCodec
import TinyDeviceOs.LinkSession

/-! Frames in flight. A byte pipe that carries whole frames may be cut anywhere. -/
namespace TinyDeviceOs.FramePipe

open LittleEndian LinkFrame LinkSession IncrementalScan LinkStream HostCodec List

def wireOf (f : Frame) : Bytes := (linkFrameEncode f linkMaxFrame).getD []

def wires (fs : List Frame) : Bytes := (fs.map wireOf).flatten

@[simp] theorem wires_nil : wires [] = [] := rfl

@[simp] theorem wires_cons (fs : List Frame) : wires (f::fs) = wireOf f++wires fs := rfl

@[simp] theorem wires_append (fs gs : List Frame) : wires (fs++gs) = wires fs++wires gs := by
  simp [wires]

/-- A frame that is read back as it was sent. -/
structure Whole (f : Frame) : Prop where
  fits : f.length.toNat ≤ linkMaxPayload
  normal : f.normalize = f

section

variable {f : Frame}

theorem Whole.encode (h : Whole f) : linkFrameEncode f linkMaxFrame = some (wireOf f) := by
  have hl := h.fits
  have he := linkFrameEncode_eq linkMaxFrame h.fits (by unfold linkMaxFrame; omega)
  rw [wireOf,he]
  rfl

theorem Whole.decode (h : Whole f) : linkFrameDecode (wireOf f) = some ((wireOf f).length,f) := by
  have hd := linkFrameDecode_encode [] h.encode
  rwa [append_nil,h.normal] at hd

theorem Whole.length (h : Whole f) : (wireOf f).length = 11+f.length.toNat := by
  rw [(linkFrameEncode_some h.encode).2.1,linkHeaderLen]
  omega

theorem Whole.item (h : Whole f) : Item frameScanner (wireOf f) := frameVerdict_of_decode h.decode

theorem whole_ofBody (h : body.length ≤ linkMaxPayload) : Whole (Frame.ofBody linkVersion flags
    channel msgId body) := by
  refine ⟨by rwa [Frame.ofBody_length h],?_⟩
  rw [Frame.normalize,Frame.ofBody_body h]
  rfl

theorem whole_sealFrame (channel : UInt8) (msgId : UInt16) (h : pt.length ≤ linkMaxPayload-24) :
    Whole (sealFrame s channel msgId pt) := by
  refine ⟨?_,sealFrame_normalize s channel msgId h⟩
  rw [sealFrame_length s channel msgId h]
  unfold linkMaxPayload at *
  omega

end

theorem frameVerdict_nil : frameVerdict [] = .wait := rfl

variable {fs : List Frame}

section

variable {σ : Type} {onFrame : σ → Bytes → σ × Bool} {J : σ → List Frame → Bool → Prop}

/-- What the callback keeps a push keeps; a frame that fails stays first. -/
theorem drain_wires (hfs : ∀ f ∈ fs, Whole f) (h : xs++rest = wires fs) (step : ∀ st' f gs,
    (st',wireOf f) ∈ deliveries onFrame xs st → Whole f → J st' (f::gs) true → J (onFrame st'
    (wireOf f)).1 (if (onFrame st' (wireOf f)).2 then gs else f::gs) (onFrame st' (wireOf f)).2)
    (hJ : J st fs true) : ∃ gs, (∀ f ∈ gs, Whole f) ∧ (drain onFrame xs st).1++rest = wires gs ∧
    J (drain onFrame xs st).2.1 gs (drain onFrame xs st).2.2 := by
  induction fs generalizing xs st with
  | nil =>
    obtain ⟨rfl,rfl⟩ := append_eq_nil_iff.mp h
    rw [drain_wait _ _ frameVerdict_nil]
    exact ⟨[],by simp,rfl,hJ⟩
  | cons f fs ih =>
    rw [forall_mem_cons] at hfs
    rw [wires_cons] at h
    rcases hfs.1.item.split h with hwait | ⟨us,rfl,hus,htake⟩
    · rw [drain_wait _ _ hwait]
      exact ⟨f::fs,forall_mem_cons.mpr hfs,h,hJ⟩
    · have hds : deliveries onFrame (wireOf f++us) st = (st,wireOf f)::
          if (onFrame st (wireOf f)).2 then deliveries onFrame us (onFrame st (wireOf f)).1
          else [] := by
        rw [deliveries_take st htake,take_left,drop_left]
      rw [hds] at step
      have hstep := step st f fs mem_cons_self hfs.1 hJ
      rw [drain_take _ _ htake,take_left,drop_left]
      cases hok : (onFrame st (wireOf f)).2 with
      | false =>
        rw [hok] at hstep
        exact ⟨f::fs,forall_mem_cons.mpr hfs,h,hstep⟩
      | true =>
        rw [hok] at hstep step
        exact ih hfs.2 hus (fun st' g gs hd => step st' g gs (mem_cons_of_mem _ hd)) hstep

theorem drain_wireOf (hf : Whole f) (hok : onFrame st (wireOf f) = (st',true)) : drain onFrame
    (wireOf f) st = ([],st',true) ∧ deliveries onFrame (wireOf f) st = [(st,wireOf f)] := by
  constructor
  · rw [drain_take _ _ hf.item,take_length,hok,if_pos rfl,drop_length]
    exact drain_wait _ _ frameVerdict_nil
  · rw [deliveries_take _ hf.item,take_length,drop_length,
      deliveries_wait _ frameVerdict_nil,ite_self]

end

/-- A frame as the host's stream hands it out. -/
def seen (f : Frame) : HostFrame := HostFrame.ofFrame (wireOf f) (wireOf f).length f

theorem decodeFrame_wireOf (h : Whole f) : decodeFrame (wireOf f) = some (seen f) := by
  rw [decodeFrame_eq,h.decode]
  rfl

theorem filterMap_wireOf (h : ∀ f ∈ fs, Whole f) :
    (fs.map wireOf).filterMap decodeFrame = fs.map seen := by
  induction fs with
  | nil => rfl
  | cons f fs ih =>
    rw [forall_mem_cons] at h
    rw [map_cons,filterMap_cons,decodeFrame_wireOf h.1,ih h.2,map_cons]

/-- Frames that have arrived whole are found, the rest is kept. -/
theorem extractFrames_wires (hfs : ∀ f ∈ fs, Whole f) (h : xs++rest = wires fs) : ∃ fs₁ fs₂, fs
    = fs₁++fs₂ ∧ (extractFrames xs).1 = fs₁.map seen ∧ (extractFrames xs).2++rest = wires fs₂ := by
  have hitems : ∀ w ∈ fs.map wireOf, Item frameScanner w := by
    simpa using fun f hf => (hfs f hf).item
  obtain ⟨ws₂,hsplit,hrest⟩ := scan_items hitems h
  obtain ⟨fs₁,fs₂,rfl,hfound,rfl⟩ := map_eq_append_iff.mp hsplit
  refine ⟨fs₁,fs₂,rfl,?_,?_⟩
  · rw [extractFrames_eq,←hfound]
    exact filterMap_wireOf fun f hf => hfs f (mem_append_left _ hf)
  · rw [extractFrames_eq]
    exact hrest

theorem extractFrames_all (hfs : ∀ f ∈ fs, Whole f) :
    extractFrames (wires fs) = (fs.map seen,[]) := by
  induction fs with
  | nil =>
    rw [extractFrames_eq,wires_nil,scan_wait frameScanner.nil_wait]
    rfl
  | cons f fs ih =>
    rw [forall_mem_cons] at hfs
    have hrest := ih hfs.2
    rw [extractFrames_eq,Prod.mk.injEq] at hrest
    rw [extractFrames_eq,wires_cons,scan_take (hfs.1.item.append _),take_left,drop_left,
      filterMap_cons_some (decodeFrame_wireOf hfs.1),hrest.1,hrest.2]
    rfl

end TinyDeviceOs.FramePipe
