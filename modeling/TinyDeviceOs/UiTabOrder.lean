import Mathlib.Data.Fintype.Card
import TinyDeviceOs.UiFocus

/-! The order in which Tab goes through the widgets of a context, and the focus along whole runs. -/
namespace TinyDeviceOs.Widgets

open Runs List Option

variable {n : ℕ}

/-- At most `k` levels deep. -/
def preorder (mem : Mem n) : ℕ → Fin n → List (Fin n)
  | 0,_ => []
  | k+1,a => a::(kids mem a).flatMap fun b => preorder mem k b

section

variable (u : Ui n) (c : CtxId)

/-- No widget is met twice; a destroyed one may still be listed. -/
def IsTree : Prop :=
  ∀ r, (u.ctxs c).root = some r → (preorder u.mem (n+1) r).Nodup ∧
    ∀ a ∈ preorder u.mem (n+1) r, ∀ w, u.mem a = some w → w.ctx = some c

def Shown (a : Fin n) : Prop :=
  ∃ r, (u.ctxs c).root = some r ∧ Relation.ReflTransGen
    (fun a b => (u.mem a).any Widget.visible = true ∧ b ∈ kids u.mem a) r a

def focusableAt (mem : Mem n) (a : Fin n) : Bool := (mem a).any widgetIsFocusable

def Eligible (a : Fin n) : Prop :=
  Shown u c a ∧ focusableAt u.mem a = true

def tab (c : CtxId) (u : Ui n) : Option (Ui n) :=
  (after step (start u) [.event (some c) .tab,.ret,.ret,.ret]).map Machine.ui

def pressed (c : CtxId) (u : Ui n) : ℕ → Option (Ui n)
  | 0 => some u
  | k+1 => (pressed c u k).bind (tab c)

def target (u : Ui n) : Option (Fin n) :=
  (u.tabOrder c).bind fun out => CyclicOrder.next out (u.ctxs c).focused

def visit (u : Ui n) (k : ℕ) : Option (Fin n) := (pressed c u k).bind (target c)

/-- Tab visits every eligible widget once per round and no other. -/
def TabRounds : Prop :=
  ∃ order : List (Fin n), order.Nodup ∧ (∀ a, a ∈ order ↔ Eligible u c a) ∧
    (∀ k, ∃ v, pressed c u k = some v) ∧
    (∀ k v b, pressed c u (k+1) = some v → visit c u k = some b → (v.ctxs c).focused = some b) ∧
    (order = [] → ∀ k, visit c u k = none) ∧
    ∀ r, ((range order.length).map fun i => visit c u (r*order.length+i)).Perm
      (order.map some)

/-- The array of `focus_next` holds just the eligible widgets. -/
def Orderly : Prop :=
  ∃ out, u.tabOrder c = some out ∧ ∀ a, a ∈ out ↔ Eligible u c a

end

/-- No freed widget was used, and focus and Tab are as they should be. -/
def Kept (m : Option (Machine n)) : Prop :=
  Sound m ∧ ∀ x ∈ m, ∀ c, IsTree x.ui c → TabRounds x.ui c

def TabsOrderly (m : Option (Machine n)) : Prop := ∀ x ∈ m, ∀ c, IsTree x.ui c → Orderly x.ui c

variable {u v : Ui n} {mem : Mem n} {a b x y : Fin n} {c : CtxId} {w : Widget n}
  {out out' : List (Fin n)}

theorem below_of_mem_preorder (h : b ∈ preorder mem k a) : Below mem a b := by
  induction k generalizing a with
  | zero => cases h
  | succ k ih =>
    rcases mem_cons.mp h with rfl | h
    · exact .refl
    · obtain ⟨d,hd,hb⟩ := mem_flatMap.mp h
      exact .head hd (ih hb)

theorem foldlM_take (hcollect : ∀ out out' b, collect out b = some out' → out' = out++(found
    b).take (m-out.length)) (bs : List (Fin n)) : ∀ {out out' : List (Fin n)}, bs.foldlM collect
    out = some out' → out' = out++(bs.flatMap found).take (m-out.length) := by
  induction bs with
  | nil =>
    intro out out' h
    cases h
    simp
  | cons b bs ih =>
    intro out out' h
    rw [foldlM_cons] at h
    obtain ⟨mid,hfirst,hrest⟩ := bind_eq_some_iff.mp h
    have hmid := hcollect out mid b hfirst
    have hlen : m-mid.length = m-out.length-(found b).length := by
      rw [hmid,length_append,length_take]
      omega
    rw [ih hrest,hlen,hmid,flatMap_cons,take_append,append_assoc]

theorem collect_eq : ∀ (out out' : List (Fin n)) (a : Fin n), collectFocusable mem k out a =
    some out' → out' = out++((preorder mem k a).filter (focusableAt mem)).take
    (uiMaxFocusable-out.length) := by
  induction k with
  | zero =>
    intro out out' a h
    rw [collectFocusable] at h
    split at h
    · cases h
      simp [preorder]
    · cases h
  | succ k ih =>
    intro out out' a h
    rw [collectFocusable] at h
    split at h
    next hfull =>
      cases h
      simp [Nat.sub_eq_zero_of_le hfull]
    next hroom =>
      obtain ⟨w,hw,h⟩ := bind_eq_some_iff.mp h
      rw [foldlM_take ih w.children h,preorder,kids_of_mem hw,filter_cons,filter_flatMap]
      have hat : focusableAt mem a = widgetIsFocusable w := by simp [focusableAt,hw]
      rw [hat]
      cases widgetIsFocusable w with
      | false => rfl
      | true =>
        have hpos : uiMaxFocusable-out.length =
            uiMaxFocusable-(out++[a]).length+1 := by
          simp only [length_append,length_singleton]
          omega
        simp [hpos]

theorem tabOrder_eq (hout : u.tabOrder c = some out) : out = [] ∨ ∃ r, (u.ctxs c).root = some r ∧
    out = ((preorder u.mem (n+1) r).filter (focusableAt u.mem)).take uiMaxFocusable := by
  rw [Ui.tabOrder] at hout
  cases hr : (u.ctxs c).root with
  | none =>
    rw [hr] at hout
    cases hout
    exact .inl rfl
  | some r =>
    rw [hr] at hout
    exact .inr ⟨r,rfl,collect_eq [] out r hout⟩

theorem tabOrder_nodup (ht : IsTree u c) (hout : u.tabOrder c = some out) : out.Nodup := by
  rcases tabOrder_eq hout with rfl | ⟨r,hr,rfl⟩
  · exact nodup_nil
  · exact ((ht r hr).1.filter _).sublist (take_sublist _ _)

theorem tabOrder_mem (ht : IsTree u c) (hout : u.tabOrder c = some out) (hb : b ∈ out) :
    ∃ w, u.mem b = some w ∧ w.enabled = true ∧ w.ctx = some c ∧ Reached u c b := by
  rcases tabOrder_eq hout with rfl | ⟨r,hr,rfl⟩
  · cases hb
  obtain ⟨hmem,hfoc⟩ := mem_filter.mp (mem_of_mem_take hb)
  obtain ⟨w,hw,hfoc⟩ := (Option.any_eq_true _ _).mp hfoc
  refine ⟨w,hw,?_,(ht r hr).2 b hmem w hw,r,hr,below_of_mem_preorder hmem⟩
  simp only [widgetIsFocusable,Bool.and_eq_true] at hfoc
  exact hfoc.1.1

section

variable (h : Alike u v)
include h

theorem Alike.collect (k : ℕ) : collectFocusable v.mem k = collectFocusable u.mem k := by
  induction k with
  | zero => rfl
  | succ k ih =>
    funext out a
    rw [collectFocusable,collectFocusable,ih]
    cases ha : u.mem a with
    | none => rw [h.dead ha]
    | some w =>
      obtain ⟨b,hb⟩ := h.live ha
      rw [hb]
      rfl

theorem Alike.tabOrder : v.tabOrder c = u.tabOrder c := by
  rw [Ui.tabOrder,Ui.tabOrder,h.root,h.collect]

theorem Alike.preorder (k : ℕ) : preorder v.mem k = preorder u.mem k := by
  induction k with
  | zero => rfl
  | succ k ih =>
    funext a
    rw [Widgets.preorder,Widgets.preorder,h.kids,ih]

theorem Alike.isTree (ht : IsTree u c) : IsTree v c := by
  intro r hr
  rw [h.root] at hr
  rw [h.preorder]
  refine ⟨(ht r hr).1,fun a ha w hw => ?_⟩
  obtain ⟨b,hb⟩ := h.symm.live hw
  have hctx := (ht r hr).2 a ha _ hb
  exact hctx

end

/-- No other widget has the flag and `ctx->focused`. -/
def Cleared (u : Ui n) (c : CtxId) (b : Fin n) : Prop :=
  ∀ f, (u.ctxs c).focused = some f → f ≠ b → ∃ x, u.mem f = some x ∧ x.focused = false

section

variable (hw : u.mem b = some w) (hwc : w.ctx = some c) (hclear : Cleared u c b)
include hw hwc hclear

theorem focus_eq_takeFocus (hen : w.enabled = true) : uiWidgetFocus u b = takeFocus u b := by
  have hof : u.focusedOf w = (u.ctxs c).focused := by simp [Ui.focusedOf,hwc]
  cases ho : u.other w b with
  | none => simp [uiWidgetFocus,hw,hen,ho]
  | some f =>
    obtain ⟨hf,hne⟩ := other_eq_some.mp ho
    obtain ⟨x,hx,hflag⟩ := hclear f (hof.symm.trans hf) hne
    simp [uiWidgetFocus,hw,hen,ho,uiWidgetUnfocus,hx,hflag,callBack]

theorem press_takes (h : Focused u) (hen : w.enabled = true) (hreached : Reached u c b) :
    ∃ v fs, uiWidgetFocus u b = some (v,fs) ∧
      (∀ rest, after step (some ⟨v,fs⟩) (.ret::.ret::rest) = after step (some ⟨v,[]⟩) rest) ∧
      Focused v ∧ Alike u v ∧ (v.ctxs c).focused = some b := by
  obtain ⟨v,heq,hflagged,hctx⟩ := takeFocus_eq hw
  have hclean : CleanTake u b := by
    refine ⟨w,hw,fun d hd => ?_⟩
    have hdc : d = c := some.inj (hd.symm.trans hwc)
    subst hdc
    refine ⟨hreached,fun f x hf hne hx => ?_⟩
    obtain ⟨y,hy,hflag⟩ := hclear f hf hne
    rw [hx] at hy
    cases hy
    exact hflag
  obtain ⟨r,hr,hv⟩ := (good_takeFocus h).mpr hclean
  rw [heq] at hr
  cases hr
  refine ⟨v,_,(focus_eq_takeFocus hw hwc hclear hen).trans heq,fun rest => ?_,hv,hflagged.alike,
    by rw [hctx,if_pos hwc]⟩
  cases w.onFocus <;> rfl

end

theorem tab_eq_none (hout : u.tabOrder c = none) : tab c u = none := by
  simp [tab,start,step,perform,uiInputEvent,focusNext,hout]

section

variable (h : Focused u) (ht : IsTree u c) (hout : u.tabOrder c = some out)
include h ht hout

theorem tab_eq : ∃ v, tab c u = some v ∧ Focused v ∧ Alike u v ∧ ∀ b, CyclicOrder.next out
    (u.ctxs c).focused = some b → (v.ctxs c).focused = some b := by
  cases hnext : CyclicOrder.next out (u.ctxs c).focused with
  | none =>
    refine ⟨u,?_,h,.refl u,fun b hb => by cases hb⟩
    simp [tab,start,step,perform,uiInputEvent,focusNext,hout,hnext]
  | some b =>
    obtain ⟨w,hw,hen,hwc,hreached⟩ := tabOrder_mem ht hout (CyclicOrder.mem_of_next hnext)
    cases hf : (u.ctxs c).focused with
    | none =>
      have hclear : Cleared u c b := by
        intro f hf'
        rw [hf] at hf'
        cases hf'
      obtain ⟨v,fs,htake,hrets,hv,halike,hfocus⟩ := press_takes hw hwc hclear h hen hreached
      rw [hf] at hnext
      refine ⟨v,?_,hv,halike,fun d hd => by cases hd; exact hfocus⟩
      have hevent : step (start u) (.event (some c) .tab) = some ⟨v,fs⟩ := by
        simp [start,step,perform,uiInputEvent,focusNext,hout,hf,hnext,htake]
      rw [tab,after_cons,hevent,hrets]
      rfl
    | some f =>
      obtain ⟨x,hx,hxc⟩ := h.live hf
      obtain ⟨u₁,heq,hflag,hctx⟩ := unfocus_eq h hx
      have h₁ := unfocus_focused h hx hflag hctx
      have halike₁ := hflag.alike
      obtain ⟨b₁,hw₁⟩ := halike₁.live hw
      have hclear : Cleared u₁ c b := by
        intro g hg _
        rw [hctx] at hg
        split at hg
        · cases hg
        rw [hf] at hg
        cases hg
        exact ⟨_,hflag.self,rfl⟩
      obtain ⟨v,fs,htake,hrets,hv,halike,hfocus⟩ :=
        press_takes hw₁ hwc hclear h₁ hen (halike₁.reached.mpr hreached)
      rw [hf] at hnext
      refine ⟨v,?_,hv,halike₁.trans halike,fun d hd => by cases hd; exact hfocus⟩
      cases hblur : x.focused && x.onBlur with
      | true =>
        rw [hblur] at heq
        have hevent : step (start u) (.event (some c) .tab) = some ⟨u₁,[.focus b]⟩ := by
          simp [start,step,perform,uiInputEvent,focusNext,hout,hf,hnext,heq,callBack]
        have hret : step (some ⟨u₁,[.focus b]⟩) .ret = some ⟨v,fs⟩ := by
          simp [step,perform,resume,htake]
        rw [tab,after_cons,hevent,after_cons,hret,hrets]
        rfl
      | false =>
        rw [hblur] at heq
        have hevent : step (start u) (.event (some c) .tab) = some ⟨v,fs⟩ := by
          simp [start,step,perform,uiInputEvent,focusNext,hout,hf,hnext,heq,callBack,htake]
        rw [tab,after_cons,hevent,hrets]
        rfl

theorem pressed_eq : ∃ v, pressed c u k = some v ∧ Focused v ∧ Alike u v := by
  induction k with
  | zero => exact ⟨u,rfl,h,.refl u⟩
  | succ k ih =>
    obtain ⟨v,hv,hfocused,halike⟩ := ih
    obtain ⟨t,htab,htfocused,htalike,-⟩ :=
      tab_eq hfocused (halike.isTree ht) (halike.tabOrder.trans hout)
    exact ⟨t,by rw [pressed,hv]; exact htab,htfocused,halike.trans htalike⟩

end

theorem visit_eq (halike : Alike u v) (hout : u.tabOrder c = some out) (hv : pressed c u k =
    some v) : visit c u k = CyclicOrder.next out (v.ctxs c).focused := by
  rw [visit,hv]
  simp [target,halike.tabOrder,hout]

section

variable (h : Focused u) (ht : IsTree u c)
include h ht

theorem lands (hout : u.tabOrder c = some out) (hv : pressed c u (k+1) = some v) (hb : visit c u
    k = some b) : (v.ctxs c).focused = some b := by
  obtain ⟨t,hk,hfocused,halike⟩ := pressed_eq h ht hout
  obtain ⟨v',htab,-,-,hnext⟩ := tab_eq hfocused (halike.isTree ht) (halike.tabOrder.trans hout)
  rw [pressed,hk] at hv
  cases htab.symm.trans hv
  exact hnext b ((visit_eq halike hout hk).symm.trans hb)

theorem visit_getElem (hout : u.tabOrder c = some out) (k : ℕ) : visit c u k =
    out[(CyclicOrder.position out (u.ctxs c).focused+k)%out.length]? := by
  refine CyclicOrder.iterate_next (tabOrder_nodup ht hout) (visit_eq (.refl u) hout rfl)
    (fun k => ?_)
  obtain ⟨v,hv,-,halike⟩ := pressed_eq h ht hout
  rw [visit_eq halike hout hv]
  cases hk : visit c u k with
  | some b => rw [lands h ht hout hv hk]
  | none =>
    obtain ⟨t,htk,-,htalike⟩ := pressed_eq h ht hout
    have hempty := CyclicOrder.next_eq_none.mp ((visit_eq htalike hout htk).symm.trans hk)
    rw [hempty]
    rfl

theorem tabRounds_iff : TabRounds u c ↔ Orderly u c := by
  constructor
  · rintro ⟨order,hnodup,hmem,hdefined,-,hempty,hrounds⟩
    cases hout : u.tabOrder c with
    | none =>
      obtain ⟨v,hv⟩ := hdefined 1
      rw [pressed,pressed,bind_some,tab_eq_none hout] at hv
      cases hv
    | some out =>
      have hiff := (CyclicOrder.rounds_iff (tabOrder_nodup ht hout) hnodup
        (visit_getElem h ht hout)).mp ⟨hempty,hrounds⟩
      exact ⟨out,hout,fun a => (hiff a).symm.trans (hmem a)⟩
  · rintro ⟨out,hout,hmem⟩
    have hnodup := tabOrder_nodup ht hout
    obtain ⟨hempty,hrounds⟩ := (CyclicOrder.rounds_iff hnodup hnodup
      (visit_getElem h ht hout)).mpr fun _ => Iff.rfl
    refine ⟨out,hnodup,hmem,fun k => ?_,fun k v b hv hb => lands h ht hout hv hb,hempty,hrounds⟩
    obtain ⟨v,hv,-⟩ := pressed_eq h ht hout
    exact ⟨v,hv⟩

end

def blurWidget (a : Fin 4) : Widget 4 where
  ctx := some 0
  parent := if a = 0 then none else some 0
  children := if a = 0 then [1,2,3] else []
  visible := true
  enabled := true
  focused := false
  dirty := true
  onClick := a ≠ 0
  onFocus := false
  onBlur := a = 1
  onValueChange := false

/-- Three buttons, the first with an `on_blur`. -/
def blurPanel : Ui 4 where
  mem := fun a => some (blurWidget a)
  ctxs := fun _ => ⟨some 0,none⟩

/-- The second is focused, and the `on_blur` focuses the third. -/
def blurFocuses : List (Op 4) := [.focus (some 1),.focus (some 2),.focus (some 3),.ret]

end TinyDeviceOs.Widgets
