import TinyDeviceOs.Runs
import TinyDeviceOs.SimGpio

/-! The two edges of a key. Each is given to the card or to the pins by what is shown at that
moment. -/
namespace TinyDeviceOs.SimGpio

open NotifyService Runs Function

inductive Op
  | post (spec : Option Spec)
  | pump
  | advance (ms : UInt32)
  | setNow (ms : UInt32)
  | key (key : SimKey) (pressed : Bool)

variable {γ : Type}

def act (panel : Panel) (x : Input γ) : Op → Input γ × List (Event γ)
  | .post spec => ({ x with service := (notifyPost x.service x.clock spec).2 },[])
  | .pump => ({ x with service := notifyServicePump x.service x.clock },[])
  | .advance ms => ({ x with clock := x.clock+ms },[])
  | .setNow ms => ({ x with service := notifyServiceSetNowMs x.service ms },[])
  | .key key pressed => simGpioHandleKey panel x key pressed

/-- With the keys held and each last press: its card and its pins. -/
structure Trace (γ : Type) where
  input : Input γ
  (held carded : SimKey → Bool)
  reached : SimKey → PinId → Bool

/-- Registered, and one key presses and releases it. -/
def Mapped (g : Gpio γ) (key : SimKey) (i : PinId) : Prop :=
  (g i).registered = true ∧ (g i).keyPressed = key ∧ releaseKey (g i) = key
  deriving Decidable

def Trace.start (x : Input γ) : Trace γ := ⟨x,fun _ => false,fun _ => false,fun _ _ => false⟩

def Alternates (t : Trace γ) : Op → Prop
  | .key key pressed => t.held key = !pressed
  | _ => True

instance (t : Trace γ) (op : Op) : Decidable (Alternates t op) := by
  cases op <;> unfold Alternates <;> infer_instance

/-- A card is shown at the release exactly if it was at the press. -/
def CardStays (t : Trace γ) : Op → Prop
  | .key key false => simKeyIsSystem key = false → (∃ i, Mapped t.input.gpio key i) →
    (t.input.service.cards ≠ [] ↔ t.carded key = true)
  | _ => True

instance (t : Trace γ) (op : Op) : Decidable (CardStays t op) := by
  unfold CardStays
  split <;> infer_instance

structure Trace.Paired (t : Trace γ) : Prop where
  reached : ∀ key i, t.held key = true → Mapped t.input.gpio key i →
    (t.reached key i = true ↔ ¬(simKeyIsSystem key = false ∧ t.carded key = true))
  high : ∀ i, releaseKey (t.input.gpio i) = (t.input.gpio i).keyPressed →
    (t.input.gpio i).level = true → (t.input.gpio i).registered = true ∧
      t.held (t.input.gpio i).keyPressed = true ∧
      t.reached (t.input.gpio i).keyPressed i = true

section

variable {panel : Panel} {t : Trace γ} {x : Input γ} {key : SimKey} {pressed : Bool} {i : PinId}

theorem Mapped.listens {g : Gpio γ} (h : Mapped g key i) (pressed : Bool) :
    listens (g i) key pressed = true := by
  obtain ⟨hr,hp,hk⟩ := h
  cases pressed with
  | false => simp [SimGpio.listens,hr,hk]
  | true => simp [SimGpio.listens,hr,hp]

theorem handleKey_gpio (panel : Panel) (x : Input γ) (key : SimKey) (pressed : Bool) (i : PinId) :
    ((simGpioHandleKey panel x key pressed).1.gpio i).registered = (x.gpio i).registered ∧
      ((simGpioHandleKey panel x key pressed).1.gpio i).keyPressed = (x.gpio i).keyPressed ∧
      releaseKey ((simGpioHandleKey panel x key pressed).1.gpio i) = releaseKey (x.gpio i) := by
  rw [handleKey_eq]
  split_ifs <;> simp

theorem mapped_handleKey : Mapped (simGpioHandleKey panel x key pressed).1.gpio k i ↔ Mapped
    x.gpio k i := by
  obtain ⟨hr,hp,hk⟩ := handleKey_gpio panel x key pressed i
  rw [Mapped,hr,hp,hk,Mapped]

theorem paired_start (h : ∀ i, (x.gpio i).level = false) : (Trace.start x).Paired := by
  refine ⟨fun key i hh => Bool.noConfusion hh,fun i _ hl => ?_⟩
  have hlow := h i
  exact absurd (hl.symm.trans hlow) (by decide)

theorem Trace.Paired.release_iff (h : t.Paired) (hdown : t.held key = true) :
    (∀ i, Mapped t.input.gpio key i →
      (Event.level i false ∈ (simGpioHandleKey panel t.input key false).2 ↔
        t.reached key i = true)) ↔ CardStays t (.key key false) := by
  have hone : ∀ i, Mapped t.input.gpio key i →
      ((Event.level i false ∈ (simGpioHandleKey panel t.input key false).2 ↔
        t.reached key i = true) ↔
      (simKeyIsSystem key = false → (t.input.service.cards ≠ [] ↔ t.carded key = true))) := by
    intro i hm
    simp only [mem_handleKey_level,h.reached key i hdown hm,hm.listens false,and_true]
    by_cases hs : simKeyIsSystem key = false
    · simp only [hs,true_and,true_imp_iff]
      exact not_iff_not
    · simp [hs]
  constructor
  · rintro hall hs ⟨i,hm⟩
    exact (hone i hm).mp (hall i hm) hs
  · intro hstays i hm
    exact (hone i hm).mpr fun hs => hstays hs ⟨i,hm⟩

end

section

variable [DecidableEq γ] (panel : Panel)

def Trace.step (t : Trace γ) (op : Op) : Trace γ :=
  let out := act panel t.input op
  match op with
  | .key key true =>
    { input := out.1
      held := update t.held key true
      carded := update t.carded key (decide (t.input.service.cards ≠ []))
      reached := update t.reached key fun i => decide (Event.level i true ∈ out.2) }
  | .key key false => { t with input := out.1, held := update t.held key false }
  | _ => { t with input := out.1 }

/-- A release reaches the pins of its press; pins are high only under a held key. -/
structure EdgesPaired (t : Trace γ) (op : Op) : Prop where
  release : ∀ key i, op = .key key false → Mapped t.input.gpio key i →
    (Event.level i false ∈ (act panel t.input op).2 ↔ t.reached key i = true)
  level : ∀ i, releaseKey ((t.step panel op).input.gpio i) =
      ((t.step panel op).input.gpio i).keyPressed →
    ((t.step panel op).input.gpio i).level = true →
    (t.step panel op).held ((t.step panel op).input.gpio i).keyPressed = true

variable {panel} {t : Trace γ} {x : Input γ} {key : SimKey} {pressed : Bool} {i : PinId} {op : Op}

theorem handleKey_level : ((simGpioHandleKey panel x key pressed).1.gpio i).level =
    if Event.level i pressed ∈ (simGpioHandleKey panel x key pressed).2 then pressed
    else (x.gpio i).level := by
  simp only [mem_handleKey_level,true_and]
  rw [handleKey_eq]
  by_cases h : simKeyIsSystem key = false ∧ x.service.cards ≠ []
  · simp [h]
  · simp [h,pinAfter_level]

theorem Trace.Paired.press (h : t.Paired) (hup : t.held key = false) :
    (t.step panel (.key key true)).Paired := by
  refine ⟨fun k i hh hm => ?_,fun i hone hl => ?_⟩
  · simp only [Trace.step] at hh hm ⊢
    have hmap := mapped_handleKey.mp hm
    by_cases hk : k = key
    · subst hk
      simp only [update_self,decide_eq_true_eq,act,mem_handleKey_level,hmap.listens true,
        and_true]
    · simp only [update_of_ne hk] at hh ⊢
      exact h.reached k i hh hmap
  · simp only [Trace.step] at hone hl ⊢
    obtain ⟨hr,hp,hq⟩ := handleKey_gpio panel t.input key true i
    simp only [act,hr,hp,hq] at hone ⊢
    rw [act,handleKey_level] at hl
    by_cases hk : (t.input.gpio i).keyPressed = key
    · have hmem : Event.level i true ∈ (simGpioHandleKey panel t.input key true).2 := by
        by_contra hmem
        rw [if_neg hmem] at hl
        have hheld := (h.high i hone hl).2.1
        rw [hk,hup] at hheld
        cases hheld
      have hlisten := (mem_handleKey_level.mp hmem).2.2
      refine ⟨?_,by simp [hk],by simp [hk,hmem]⟩
      rw [listens,Bool.and_eq_true] at hlisten
      exact hlisten.1
    · have hmem : Event.level i true ∉ (simGpioHandleKey panel t.input key true).2 := by
        rw [mem_handleKey_level]
        simp [listens,hk]
      rw [if_neg hmem] at hl
      simp only [update_of_ne hk]
      exact h.high i hone hl

theorem Trace.Paired.release (h : t.Paired)
    (hpair : ∀ i, Mapped t.input.gpio key i →
      (Event.level i false ∈ (simGpioHandleKey panel t.input key false).2 ↔
        t.reached key i = true)) : (t.step panel (.key key false)).Paired := by
  refine ⟨fun k i hh hm => ?_,fun i hone hl => ?_⟩
  · simp only [Trace.step] at hh hm ⊢
    have hmap := mapped_handleKey.mp hm
    have hk : k ≠ key := by
      rintro rfl
      simp at hh
    rw [update_of_ne hk] at hh
    exact h.reached k i hh hmap
  · simp only [Trace.step] at hone hl ⊢
    obtain ⟨hr,hp,hq⟩ := handleKey_gpio panel t.input key false i
    simp only [act,hr,hp,hq] at hone ⊢
    rw [act,handleKey_level] at hl
    have hmem : Event.level i false ∉ (simGpioHandleKey panel t.input key false).2 := by
      intro hmem
      rw [if_pos hmem] at hl
      cases hl
    rw [if_neg hmem] at hl
    obtain ⟨hreg,hheld,hreached⟩ := h.high i hone hl
    have hk : (t.input.gpio i).keyPressed ≠ key := by
      rintro rfl
      exact hmem ((hpair i ⟨hreg,rfl,hone⟩).mpr hreached)
    rw [update_of_ne hk]
    exact ⟨hreg,hheld,hreached⟩

theorem Trace.Paired.step (h : t.Paired) (ha : Alternates t op) (hc : CardStays t op) :
    (t.step panel op).Paired := by
  cases op with
  | key key pressed =>
    cases pressed with
    | true => exact h.press ha
    | false => exact h.release ((h.release_iff ha).mpr hc)
  | _ => exact ⟨h.reached,h.high⟩

theorem Trace.Paired.edgesPaired_iff (h : t.Paired) (ha : Alternates t op) :
    EdgesPaired panel t op ↔ CardStays t op := by
  constructor
  · intro hp
    cases op with
    | key key pressed =>
      cases pressed with
      | true => trivial
      | false => exact (h.release_iff ha).mp fun i hm => hp.release key i rfl hm
    | _ => trivial
  · intro hc
    refine ⟨fun key i hop hm => ?_,fun i hone hl => ((h.step ha hc).high i hone hl).2.1⟩
    subst hop
    exact (h.release_iff ha).mpr hc i hm

/-- In every run in which presses and releases alternate, the releases go where their presses went
exactly if no card comes or goes between the two edges. -/
theorem key_edges_paired_iff (panel : Panel) (x : Input γ) (hlow : ∀ i, (x.gpio i).level = false)
    (ops : List Op) (ha : Each (Trace.step panel) Alternates (Trace.start x) ops) :
    Each (Trace.step panel) (EdgesPaired panel) (Trace.start x) ops ↔
      Each (Trace.step panel) CardStays (Trace.start x) ops := by
  refine each_iff_of_each (I:=Trace.Paired) (fun t op h ha hp => ?_) (fun t op h ha => ?_)
    (paired_start hlow) ha
  · exact h.step ha ((h.edgesPaired_iff ha).mp hp)
  · exact h.edgesPaired_iff ha

end

/-- Pin 20 is mapped to the up key, as by `app_button_init`. -/
def onePin : Input Unit :=
  ⟨notifyServiceStart,10000,update simGpioInit 20
    ⟨true,false,.up,.unknown,⟨true,some (),.rising,false⟩⟩⟩

def smallPanel : Panel := ⟨128,32⟩

def hello : Spec := ⟨some [72,105],none,.band,0,0⟩

/-- Both edges under the card, then both to the pin. -/
def tapTwice : List Op := [.post (some hello),.key .up true,.advance 100,.key .up false,
  .advance 200,.pump,.key .up true,.key .up false]

theorem key_edges_paired_iff_taps :
    Each (Trace.step smallPanel) (EdgesPaired smallPanel) (Trace.start onePin) tapTwice ∧
      (after (Trace.step smallPanel) (Trace.start onePin) (tapTwice.take 7)).reached .up 20 =
        true :=
  ⟨(key_edges_paired_iff smallPanel onePin (by decide +kernel) tapTwice (by decide +kernel)).mpr
    (by decide +kernel),by decide +kernel⟩

def cardComes : List Op := [.key .up true,.post (some hello),.key .up false]

/-- The press dismisses a card that is gone at the release. -/
def cardGoes : List Op := [.post (some hello),.key .up true,.advance 200,.pump,.key .up false]

/-- The release is taken by the card, or reaches a pin that never saw the press. -/
theorem key_edges_parted :
    (Each (Trace.step smallPanel) Alternates (Trace.start onePin) cardComes ∧
      ((after (Trace.step smallPanel) (Trace.start onePin) cardComes).input.gpio 20).level = true ∧
      (after (Trace.step smallPanel) (Trace.start onePin) cardComes).held .up = false ∧
      ¬Each (Trace.step smallPanel) (EdgesPaired smallPanel) (Trace.start onePin) cardComes) ∧
    (Each (Trace.step smallPanel) Alternates (Trace.start onePin) cardGoes ∧
      (after (Trace.step smallPanel) (Trace.start onePin) cardGoes).reached .up 20 = false ∧
      Event.level 20 false ∈ (act smallPanel (after (Trace.step smallPanel) (Trace.start onePin)
        (cardGoes.take 4)).input (.key .up false)).2 ∧
      ¬Each (Trace.step smallPanel) (EdgesPaired smallPanel) (Trace.start onePin) cardGoes) := by
  refine ⟨⟨by decide +kernel,by decide +kernel,by decide +kernel,fun h => ?_⟩,
    by decide +kernel,by decide +kernel,by decide +kernel,fun h => ?_⟩
  · obtain ⟨-,-,hp,-⟩ := h
    exact absurd (hp.level 20 (by decide +kernel) (by decide +kernel)) (by decide +kernel)
  · obtain ⟨-,-,-,-,hp,-⟩ := h
    exact absurd ((hp.release .up 20 rfl (by decide +kernel)).mp (by decide +kernel))
      (by decide +kernel)

end TinyDeviceOs.SimGpio
