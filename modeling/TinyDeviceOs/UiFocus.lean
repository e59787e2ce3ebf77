import TinyDeviceOs.UiWidgets

/-! The focus of a context along a run of widget calls. What each step needs is exact, also for the
steps that callbacks take. -/
namespace TinyDeviceOs.Widgets

open Option Function

variable {n : ℕ}

def kids (mem : Mem n) (a : Fin n) : List (Fin n) := ((mem a).map Widget.children).getD []

/-- Everything that its children arrays lead to. -/
def Below (mem : Mem n) : Fin n → Fin n → Prop := Relation.ReflTransGen fun a b => b ∈ kids mem a

section

variable (u : Ui n)

def Reached (c : CtxId) (a : Fin n) : Prop :=
  ∃ r, (u.ctxs c).root = some r ∧ Below u.mem r a

/-- A flag is set on `ctx->focused` only, which is NULL or live and in the tree. -/
structure Focus (u : Ui n) (c : CtxId) : Prop where
  only : ∀ a w, u.mem a = some w → w.ctx = some c → w.focused = true →
    (u.ctxs c).focused = some a
  inTree : ∀ f, (u.ctxs c).focused = some f →
    ∃ w, u.mem f = some w ∧ w.ctx = some c ∧ Reached u c f

def Focused : Prop := ∀ c, Focus u c

def Ui.blurs (f : Option (Fin n)) : Bool :=
  (f.bind u.mem).any fun x => x.focused && x.onBlur

def Ui.afterBlur (f : Option (Fin n)) : Ui n :=
  ((f.bind (uiWidgetUnfocus u)).map Prod.fst).getD u

/-- Live, in the tree, and the focus is not with another. -/
def CleanTake (a : Fin n) : Prop :=
  ∃ w, u.mem a = some w ∧ ∀ c, w.ctx = some c → Reached u c a ∧
    ∀ f x, (u.ctxs c).focused = some f → f ≠ a → u.mem f = some x → x.focused = false

/-- Live and, when no `on_blur` comes first, in the tree. -/
def CleanFocus (a : Fin n) : Prop :=
  ∃ w, u.mem a = some w ∧ (w.enabled = true → u.blurs (u.other w a) = false →
    ∀ c, w.ctx = some c → Reached u c a)

def CleanTab (c : CtxId) : Prop :=
  ∃ out, u.tabOrder c = some out ∧ ∀ b, CyclicOrder.next out (u.ctxs c).focused = some b →
    u.blurs (u.ctxs c).focused = false → CleanFocus (u.afterBlur (u.ctxs c).focused) b

def CleanAdd (p c : Fin n) : Prop :=
  ∃ w, u.mem p = some w ∧ (w.children.length < uiMaxChildren → ∃ x, u.mem c = some x)

/-- After `c` is taken out of the children of `p`. -/
def BelowWithout (mem : Mem n) (p c : Fin n) : Fin n → Fin n → Prop :=
  Relation.ReflTransGen fun a b => b ∈ if a = p then (kids mem a).erase c else kids mem a

def CleanRemove (p c : Fin n) : Prop :=
  ∃ w, u.mem p = some w ∧ (c ∈ w.children → (∃ x, u.mem c = some x) ∧
    ∀ d f, (u.ctxs d).focused = some f →
      ∃ r, (u.ctxs d).root = some r ∧ BelowWithout u.mem p c r f)

/-- No freed widget is met, and no focused one destroyed. -/
def CleanDestroy (a : Fin n) : Prop :=
  (∃ mem, destroyFrom (n+1) u.mem a = some mem) ∧
    ∀ c f, (u.ctxs c).focused = some f → ¬Below u.mem a f

def CleanFrame : Frame n → Prop
  | .done => True
  | .take a => CleanTake u a
  | .focus a => CleanFocus u a

def CleanOp (stack : List (Frame n)) : Op n → Prop
  | .addChild (some p) (some c) => CleanAdd u p c
  | .removeChild (some p) (some c) => CleanRemove u p c
  | .destroy (some a) => CleanDestroy u a
  | .focus (some a) => CleanFocus u a
  | .unfocus (some a) => ∃ w, u.mem a = some w
  | .event (some c) .tab => CleanTab u c
  | .ret => ∀ k ∈ stack.head?, CleanFrame u k
  | _ => True

end

def Clean (m : Option (Machine n)) (op : Op n) : Prop := ∀ x ∈ m, CleanOp x.ui x.stack op

def Good (r : Outcome n) : Prop := ∃ x, r = some x ∧ Focused x.1

variable {u v : Ui n} {a b f : Fin n} {c : CtxId} {w x : Widget n}

structure Alike (u v : Ui n) : Prop where
  mem : ∀ a, (v.mem a).map (fun w => { w with focused := false }) =
    (u.mem a).map fun w => { w with focused := false }
  root : ∀ c, (v.ctxs c).root = (u.ctxs c).root

theorem Alike.refl (u : Ui n) : Alike u u := ⟨fun _ => rfl,fun _ => rfl⟩

section

variable (h : Alike u v)
include h

theorem Alike.symm : Alike v u := ⟨fun a => (h.mem a).symm,fun c => (h.root c).symm⟩

theorem Alike.trans (h' : Alike v t) : Alike u t :=
  ⟨fun a => (h'.mem a).trans (h.mem a),fun c => (h'.root c).trans (h.root c)⟩

theorem Alike.live (hw : u.mem a = some w) :
    ∃ b, v.mem a = some { w with focused := b } := by
  have hmem := h.mem a
  rw [hw] at hmem
  obtain ⟨y,hy,heq⟩ := map_eq_some_iff.mp hmem
  refine ⟨y.focused,hy.trans (congrArg some ?_)⟩
  cases y
  cases w
  simp_all

theorem Alike.dead (ha : u.mem a = none) : v.mem a = none := by
  have hmem := h.mem a
  rw [ha] at hmem
  exact map_eq_none_iff.mp hmem

theorem Alike.kids : kids v.mem = kids u.mem := by
  funext a
  cases ha : u.mem a with
  | none => rw [Widgets.kids,Widgets.kids,ha,h.dead ha]
  | some w =>
    obtain ⟨b,hb⟩ := h.live ha
    rw [Widgets.kids,Widgets.kids,ha,hb]
    rfl

theorem Alike.reached : Reached v c a ↔ Reached u c a := by
  rw [Reached,Reached,Below,Below,h.kids,h.root]

theorem Alike.inTree (hf : ∃ w, u.mem f = some w ∧ w.ctx = some c ∧ Reached u c f) :
    ∃ w, v.mem f = some w ∧ w.ctx = some c ∧ Reached v c f := by
  obtain ⟨w,hw,hc,hreached⟩ := hf
  obtain ⟨b,hb⟩ := h.live hw
  exact ⟨_,hb,hc,h.reached.mpr hreached⟩

end

theorem setFocused_ctxs : (u.setFocused d g).ctxs c =
    if d = some c then { u.ctxs c with focused := g } else u.ctxs c := by
  cases d with
  | none => rfl
  | some d =>
    by_cases hd : d = c
    · subst hd
      simp [Ui.setFocused]
    · simp [Ui.setFocused,hd,Ne.symm hd]

@[simp] theorem setFocused_mem : (u.setFocused d g).mem = u.mem := by
  cases d <;> rfl

/-- The contexts may have another focus. -/
structure Flagged (u v : Ui n) (a : Fin n) (w : Widget n) (b : Bool) : Prop where
  alike : Alike u v
  same : ∀ d, d ≠ a → v.mem d = u.mem d
  self : v.mem a = some { w with focused := b }

theorem flagged_put (hw : u.mem a = some w) (b : Bool) :
    Flagged u (u.put a { w with focused := b }) a w b := by
  refine ⟨⟨fun d => ?_,fun _ => rfl⟩,fun d hd => update_of_ne hd _ _,update_self _ _ _⟩
  by_cases hd : d = a
  · subst hd
    simp [Ui.put,hw]
  · simp [Ui.put,hd]

theorem Flagged.setFocused {b : Bool} (h : Flagged u v a w b) (d : Option CtxId)
    (g : Option (Fin n)) : Flagged u (v.setFocused d g) a w b := by
  have halike : Alike v (v.setFocused d g) := by
    refine ⟨fun a => by rw [setFocused_mem],fun c => ?_⟩
    rw [setFocused_ctxs]
    split <;> rfl
  refine ⟨h.alike.trans halike,?_,?_⟩
  · rw [setFocused_mem]
    exact h.same
  · rw [setFocused_mem]
    exact h.self

theorem Focused.live (h : Focused u) (hf : (u.ctxs c).focused = some f) :
    ∃ x, u.mem f = some x ∧ x.ctx = some c := by
  obtain ⟨x,hx,hctx,-⟩ := (h c).inTree f hf
  exact ⟨x,hx,hctx⟩

theorem unfocus_eq (h : Focused u) (hx : u.mem f = some x) : ∃ v,
    uiWidgetUnfocus u f = some (v,x.focused && x.onBlur) ∧ Flagged u v f x false ∧
    ∀ c, (v.ctxs c).focused =
      if x.focused = true ∧ x.ctx = some c then none else (u.ctxs c).focused := by
  cases hflag : x.focused with
  | false =>
    have hself : u.mem f = some { x with focused := false } := by rw [hx,←hflag]
    exact ⟨u,by simp [uiWidgetUnfocus,hx,hflag],⟨.refl u,fun _ _ => rfl,hself⟩,fun c => by simp⟩
  | true =>
    have hput := flagged_put hx false
    cases hctx : x.ctx with
    | none =>
      refine ⟨u.put f { x with focused := false },?_,hput,fun c => by simp [Ui.put]⟩
      simp [uiWidgetUnfocus,hx,hflag,hctx,Ui.focusedOf]
    | some d =>
      have hd := (h d).only f x hx hctx hflag
      refine ⟨(u.put f { x with focused := false }).setFocused (some d) none,?_,
        hput.setFocused _ _,fun c => ?_⟩
      · simp [uiWidgetUnfocus,hx,hflag,hctx,Ui.focusedOf,hd]
      · rw [setFocused_ctxs]
        by_cases hc : d = c
        · simp [hc]
        · simp [hc,Ui.put]

theorem unfocus_focused (h : Focused u) (hx : u.mem f = some x) (hv : Flagged u v f x false)
    (hctx : ∀ c, (v.ctxs c).focused =
      if x.focused = true ∧ x.ctx = some c then none else (u.ctxs c).focused) : Focused v := by
  refine fun c => ⟨fun a w hw hwc hflag => ?_,fun g hg => ?_⟩
  · have hne : a ≠ f := by
      rintro rfl
      rw [hv.self] at hw
      cases hw
      exact absurd hflag (by simp)
    rw [hv.same a hne] at hw
    have hu := (h c).only a w hw hwc hflag
    rw [hctx,if_neg]
    · exact hu
    · rintro ⟨hxflag,hxc⟩
      exact hne (some.inj (hu.symm.trans ((h c).only f x hx hxc hxflag)))
  · rw [hctx] at hg
    split at hg
    · cases hg
    exact hv.alike.inTree ((h c).inTree g hg)

theorem blurs_eq (hx : u.mem f = some x) : u.blurs (some f) = (x.focused && x.onBlur) := by
  simp [Ui.blurs,hx]

theorem afterBlur_eq (h : uiWidgetUnfocus u f = some (v,r)) : u.afterBlur (some f) = v := by
  simp [Ui.afterBlur,h]

theorem takeFocus_eq (hw : u.mem a = some w) : ∃ v,
    takeFocus u a = some (v,if w.onFocus then [.done] else []) ∧ Flagged u v a w true ∧
    ∀ c, (v.ctxs c).focused = if w.ctx = some c then some a else (u.ctxs c).focused := by
  refine ⟨_,by rw [takeFocus,hw]; rfl,(flagged_put hw true).setFocused _ _,fun c => ?_⟩
  rw [setFocused_ctxs]
  split <;> rfl

theorem good_some {r : Ui n × List (Frame n)} : Good (some r) ↔ Focused r.1 := by
  simp [Good]

theorem good_takeFocus (h : Focused u) : Good (takeFocus u a) ↔ CleanTake u a := by
  cases hw : u.mem a with
  | none => simp [Good,takeFocus,CleanTake,hw]
  | some w =>
    obtain ⟨v,heq,hv,hctx⟩ := takeFocus_eq hw
    rw [heq,good_some]
    simp only [CleanTake,hw,some.injEq,exists_eq_left']
    constructor
    · intro hgood c hc
      have hfocus : (v.ctxs c).focused = some a := by rw [hctx,if_pos hc]
      obtain ⟨-,-,-,hreached⟩ := (hgood c).inTree a hfocus
      refine ⟨hv.alike.reached.mp hreached,fun f x hf hne hx => ?_⟩
      by_contra hflag
      obtain ⟨y,hy,hyc⟩ := h.live hf
      rw [hx] at hy
      cases hy
      have honly := (hgood c).only f x ((hv.same f hne).trans hx) hyc (by simpa using hflag)
      exact hne (some.inj (honly.symm.trans hfocus))
    · intro hc c
      refine ⟨fun b y hy hyc hflag => ?_,fun g hg => ?_⟩
      · rw [hctx]
        by_cases hb : b = a
        · subst hb
          rw [hv.self] at hy
          cases hy
          exact if_pos hyc
        · rw [hv.same b hb] at hy
          have hu := (h c).only b y hy hyc hflag
          rw [if_neg]
          · exact hu
          · intro hwc
            exact absurd hflag (by simp [(hc c hwc).2 b y hu hb hy])
      · rw [hctx] at hg
        split at hg
        next hwc =>
          cases hg
          exact ⟨_,hv.self,hwc,hv.alike.reached.mpr (hc c hwc).1⟩
        next => exact hv.alike.inTree ((h c).inTree g hg)

theorem other_eq_some : u.other w a = some f ↔ u.focusedOf w = some f ∧ f ≠ a := by
  simp [Ui.other,filter_eq_some_iff]

theorem focusedOf_eq_some : u.focusedOf w = some f ↔
    ∃ c, w.ctx = some c ∧ (u.ctxs c).focused = some f := by
  simp [Ui.focusedOf,bind_eq_some_iff]

/-- With no flag on another widget only the place in the tree is left. -/
theorem cleanTake_iff_reached (hw : u.mem a = some w)
    (hclear : ∀ c f x, w.ctx = some c → (u.ctxs c).focused = some f → f ≠ a →
      u.mem f = some x → x.focused = false) :
    CleanTake u a ↔ ∀ c, w.ctx = some c → Reached u c a := by
  simp only [CleanTake,hw,some.injEq,exists_eq_left']
  exact forall₂_congr fun c hwc => and_iff_left fun f x => hclear c f x hwc

theorem good_focus (h : Focused u) : Good (uiWidgetFocus u a) ↔ CleanFocus u a := by
  cases hw : u.mem a with
  | none => simp [Good,uiWidgetFocus,CleanFocus,hw]
  | some w =>
    simp only [CleanFocus,hw,some.injEq,exists_eq_left']
    cases hen : w.enabled with
    | false =>
      refine iff_of_true ⟨(u,[]),by simp [uiWidgetFocus,hw,hen],h⟩ fun he => ?_
      cases he
    | true =>
      cases ho : u.other w a with
      | none =>
        have heq : uiWidgetFocus u a = takeFocus u a := by simp [uiWidgetFocus,hw,hen,ho]
        rw [heq,good_takeFocus h,cleanTake_iff_reached hw]
        · simp [Ui.blurs]
        · intro c f x hwc hf hne
          have hsome := other_eq_some.mpr ⟨focusedOf_eq_some.mpr ⟨c,hwc,hf⟩,hne⟩
          rw [ho] at hsome
          cases hsome
      | some f =>
        obtain ⟨hof,hne⟩ := other_eq_some.mp ho
        obtain ⟨d,hwd,hfd⟩ := focusedOf_eq_some.mp hof
        obtain ⟨x,hx,hxd⟩ := h.live hfd
        obtain ⟨v,heq,hflag,hctx⟩ := unfocus_eq h hx
        have hv := unfocus_focused h hx hflag hctx
        have hcall : uiWidgetFocus u a =
            callBack (.take a) (fun u => takeFocus u a) (v,x.focused && x.onBlur) := by
          simp [uiWidgetFocus,hw,hen,ho,heq]
        rw [hcall,blurs_eq hx]
        cases hblur : x.focused && x.onBlur with
        | true => exact iff_of_true ⟨(v,_),rfl,hv⟩ fun _ hb => by cases hb
        | false =>
          have hwv : v.mem a = some w := (hflag.same a hne.symm).trans hw
          have hrest : callBack (.take a) (fun u => takeFocus u a) (v,false) = takeFocus v a := rfl
          rw [hrest,good_takeFocus hv,cleanTake_iff_reached hwv]
          · simp only [hflag.alike.reached,forall_const]
          · intro c g y hwc hg hga hy
            have hcd : c = d := some.inj (hwc.symm.trans hwd)
            subst hcd
            rw [hctx] at hg
            split at hg
            · cases hg
            rw [hfd] at hg
            cases hg
            rw [hflag.self] at hy
            cases hy
            rfl

theorem good_focusNext (h : Focused u) : Good (focusNext u c) ↔ CleanTab u c := by
  cases hout : u.tabOrder c with
  | none => simp [Good,focusNext,CleanTab,hout]
  | some out =>
    simp only [CleanTab,hout,some.injEq,exists_eq_left']
    cases hnext : CyclicOrder.next out (u.ctxs c).focused with
    | none =>
      refine iff_of_true ⟨(u,[]),by simp [focusNext,hout,hnext],h⟩ fun b hb => ?_
      cases hb
    | some b =>
      simp only [some.injEq,forall_eq']
      cases hf : (u.ctxs c).focused with
      | none =>
        rw [hf] at hnext
        have heq : focusNext u c = uiWidgetFocus u b := by simp [focusNext,hout,hf,hnext]
        rw [heq,good_focus h]
        simp [Ui.blurs,Ui.afterBlur]
      | some f =>
        obtain ⟨x,hx,-⟩ := h.live hf
        obtain ⟨v,heq,hflag,hctx⟩ := unfocus_eq h hx
        have hv := unfocus_focused h hx hflag hctx
        rw [hf] at hnext
        have hcall : focusNext u c =
            callBack (.focus b) (fun u => uiWidgetFocus u b) (v,x.focused && x.onBlur) := by
          simp [focusNext,hout,hf,hnext,heq]
        rw [hcall,blurs_eq hx,afterBlur_eq heq]
        cases hblur : x.focused && x.onBlur with
        | true => exact iff_of_true ⟨(v,_),rfl,hv⟩ fun hb => by cases hb
        | false =>
          rw [forall_prop_of_true rfl]
          exact good_focus hv

section

variable {mem mem₁ : Mem n} {p d : Fin n}

/-- The same flags and contexts, whatever the links are. -/
structure Relinked (u v : Ui n) : Prop where
  ctxs : v.ctxs = u.ctxs
  mem : ∀ a, (v.mem a).map (fun w => (w.ctx,w.focused)) =
    (u.mem a).map fun w => (w.ctx,w.focused)

theorem Relinked.trans (h : Relinked u v) (h' : Relinked v t) : Relinked u t :=
  ⟨h'.ctxs.trans h.ctxs,fun a => (h'.mem a).trans (h.mem a)⟩

theorem Relinked.symm (h : Relinked u v) : Relinked v u :=
  ⟨h.ctxs.symm,fun a => (h.mem a).symm⟩

theorem Relinked.live (h : Relinked u v) (hw : u.mem a = some w) :
    ∃ y, v.mem a = some y ∧ y.ctx = w.ctx ∧ y.focused = w.focused := by
  have hmem := h.mem a
  rw [hw] at hmem
  obtain ⟨y,hy,heq⟩ := map_eq_some_iff.mp hmem
  exact ⟨y,hy,congrArg Prod.fst heq,congrArg Prod.snd heq⟩

theorem relinked_put (hw : u.mem a = some w) (hctx : y.ctx = w.ctx) (hflag : y.focused =
    w.focused) : Relinked u (u.put a y) := by
  refine ⟨rfl,fun b => ?_⟩
  by_cases hb : b = a
  · subst hb
    simp [Ui.put,hw,hctx,hflag]
  · simp [Ui.put,hb]

theorem focused_of_sub (h : Focused u) (hctxs : v.ctxs = u.ctxs)
    (hsub : ∀ a y, v.mem a = some y →
      ∃ w, u.mem a = some w ∧ w.ctx = y.ctx ∧ w.focused = y.focused)
    (hkept : ∀ c f x, (u.ctxs c).focused = some f → u.mem f = some x →
      (∃ y, v.mem f = some y ∧ y.ctx = x.ctx) ∧ Reached v c f) : Focused v := by
  refine fun c => ⟨fun a y hy hyc hflag => ?_,fun f hf => ?_⟩
  · obtain ⟨w,hw,hctx,hfocused⟩ := hsub a y hy
    rw [hctxs]
    exact (h c).only a w hw (hctx.trans hyc) (hfocused.trans hflag)
  · rw [hctxs] at hf
    obtain ⟨x,hx,hxc⟩ := h.live hf
    obtain ⟨⟨y,hy,hctx⟩,hreached⟩ := hkept c f x hf hx
    exact ⟨y,hy,hctx.trans hxc,hreached⟩

theorem Relinked.focused_iff (hv : Relinked u v) (h : Focused u) :
    Focused v ↔ ∀ c f, (u.ctxs c).focused = some f → Reached v c f := by
  constructor
  · intro hfocused c f hf
    rw [←hv.ctxs] at hf
    obtain ⟨-,-,-,hreached⟩ := (hfocused c).inTree f hf
    exact hreached
  · intro hreached
    refine focused_of_sub h hv.ctxs (fun a y hy => hv.symm.live hy) fun c f x hf hx => ?_
    obtain ⟨y,hy,hctx,-⟩ := hv.live hx
    exact ⟨⟨y,hy,hctx⟩,hreached c f hf⟩

theorem kids_of_mem (h : mem a = some w) : kids mem a = w.children := by
  rw [kids,h]
  rfl

theorem kids_put : kids (u.put a y).mem b = if b = a then y.children else kids u.mem b := by
  by_cases hb : b = a
  · subst hb
    simp [kids,Ui.put]
  · simp [kids,Ui.put,hb]

theorem kids_put_self (hw : u.mem a = some w) (hy : y.children = w.children) : kids (u.put a
    y).mem = kids u.mem := by
  funext b
  rw [kids_put]
  split
  next hb => rw [hb,hy,kids_of_mem hw]
  next => rfl

theorem addChild_eq (hp : u.mem p = some w) (hroom : w.children.length < uiMaxChildren)
    (hd : u.mem d = some x) : ∃ v, uiWidgetAddChild u (some p) (some d) = some (v,0) ∧
      Relinked u v ∧ ∀ b, kids v.mem b = if b = p then kids u.mem b++[d] else kids u.mem b := by
  have hchild : Relinked u (u.put d { x with parent := some p }) := relinked_put hd rfl rfl
  have hkids := kids_put_self hd (y:={ x with parent := some p }) rfl
  obtain ⟨w₁,hw₁,-⟩ := hchild.live hp
  refine ⟨(u.put d { x with parent := some p }).put p
    { w₁ with children := w₁.children++[d], dirty := true },?_,
    hchild.trans (relinked_put hw₁ rfl rfl),fun b => ?_⟩
  · simp [uiWidgetAddChild,hp,not_le.mpr hroom,hd,hw₁]
  · rw [kids_put,hkids]
    split
    next hb => rw [hb,←hkids,kids_of_mem hw₁]
    next => rfl

theorem good_addChild (h : Focused u) :
    (∃ r, uiWidgetAddChild u (some p) (some d) = some r ∧ Focused r.1) ↔ CleanAdd u p d := by
  constructor
  · rintro ⟨r,hr,-⟩
    cases hp : u.mem p with
    | none => simp [uiWidgetAddChild,hp] at hr
    | some w =>
      refine ⟨w,hp,fun hroom => ?_⟩
      cases hd : u.mem d with
      | none => simp [uiWidgetAddChild,hp,not_le.mpr hroom,hd] at hr
      | some x => exact ⟨x,rfl⟩
  · rintro ⟨w,hp,hlive⟩
    rcases lt_or_ge w.children.length uiMaxChildren with hroom | hfull
    · obtain ⟨x,hd⟩ := hlive hroom
      obtain ⟨v,heq,hv,hkids⟩ := addChild_eq hp hroom hd
      refine ⟨_,heq,(hv.focused_iff h).mpr fun c f hf => ?_⟩
      obtain ⟨-,-,-,r,hr,hbelow⟩ := (h c).inTree f hf
      refine ⟨r,by rw [hv.ctxs,hr],Relation.ReflTransGen.mono (fun a b hb => ?_) _ _ hbelow⟩
      rw [hkids]
      split
      · exact List.mem_append_left _ hb
      · exact hb
    · exact ⟨(u,-1),by simp [uiWidgetAddChild,hp,hfull],h⟩

theorem removeChild_eq (hp : u.mem p = some w) (hmem : d ∈ w.children) (hd : u.mem d = some x) :
    ∃ v, uiWidgetRemoveChild u (some p) (some d) = some (v,0) ∧ Relinked u v ∧
      ∀ b, kids v.mem b = if b = p then (kids u.mem b).erase d else kids u.mem b := by
  have hparent : Relinked u (u.put p { w with children := w.children.erase d, dirty := true }) :=
    relinked_put hp rfl rfl
  obtain ⟨x₁,hx₁,-⟩ := hparent.live hd
  refine ⟨(u.put p { w with children := w.children.erase d, dirty := true }).put d
    { x₁ with parent := none },?_,hparent.trans (relinked_put hx₁ rfl rfl),fun b => ?_⟩
  · simp [uiWidgetRemoveChild,hp,hmem,hx₁]
  · rw [kids_put_self hx₁ (y:={ x₁ with parent := none }) rfl,kids_put]
    split
    next hb => rw [hb,kids_of_mem hp]
    next => rfl

theorem good_removeChild (h : Focused u) :
    (∃ r, uiWidgetRemoveChild u (some p) (some d) = some r ∧ Focused r.1) ↔ CleanRemove u p d := by
  cases hp : u.mem p with
  | none => simp [uiWidgetRemoveChild,CleanRemove,hp]
  | some w =>
    simp only [CleanRemove,hp,some.injEq,exists_eq_left']
    by_cases hmem : d ∈ w.children
    · cases hd : u.mem d with
      | none =>
        refine iff_of_false ?_ fun hc => ?_
        · rintro ⟨r,hr,-⟩
          have hne : d ≠ p := by
            rintro rfl
            rw [hp] at hd
            cases hd
          simp [uiWidgetRemoveChild,hp,hmem,Ui.put,update_of_ne hne,hd] at hr
        · obtain ⟨⟨x,hx⟩,-⟩ := hc hmem
          cases hx
      | some x =>
        obtain ⟨v,heq,hv,hkids⟩ := removeChild_eq hp hmem hd
        have hlinks : Below v.mem = BelowWithout u.mem p d := by
          rw [Below,BelowWithout]
          congr 1
          funext a b
          rw [hkids]
        simp only [heq,some.injEq,exists_eq_left']
        rw [hv.focused_iff h]
        simp only [Reached,hlinks,hv.ctxs]
        exact ⟨fun hc _ => ⟨⟨x,rfl⟩,hc⟩,fun hc => (hc hmem).2⟩
    · refine iff_of_true ⟨(u,-1),by simp [uiWidgetRemoveChild,hp,hmem],h⟩ fun hd => ?_
      exact absurd hd hmem

end

section

variable {mem mem₁ mem' : Mem n} {gone : Fin n → Prop}

theorem below_split (hoff : ∀ x, ¬gone x → mem₁ x = mem x)
    (hclosed : ∀ x y, gone x → y ∈ kids mem x → gone y) (h : Below mem a b) :
    gone b ∨ Below mem₁ a b := by
  induction h with
  | refl => exact .inr .refl
  | @tail y z _ hlink ih =>
    by_cases hy : gone y
    · exact .inl (hclosed y z hy hlink)
    · refine .inr ((ih.resolve_left hy).tail ?_)
      rw [kids,hoff y hy]
      exact hlink

theorem below_of_sub (hsub : ∀ x, mem₁ x = none ∨ mem₁ x = mem x) (h : Below mem₁ a b) :
    Below mem a b := by
  refine Relation.ReflTransGen.mono (fun x y hy => ?_) _ _ h
  rcases hsub x with hx | hx
  · simp [kids,hx] at hy
  · rwa [kids,hx] at hy

structure Freed (gone : Fin n → Prop) (mem mem' : Mem n) : Prop where
  dead : ∀ x, gone x → mem' x = none
  same : ∀ x, ¬gone x → mem' x = mem x

theorem Freed.sub (h : Freed gone mem mem') (x : Fin n) : mem' x = none ∨ mem' x = mem x := by
  by_cases hx : gone x
  · exact .inl (h.dead x hx)
  · exact .inr (h.same x hx)

theorem freed_children (hfree : ∀ mem mem' b, free mem b = some mem' → Freed (Below mem b) mem
    mem') (bs : List (Fin n)) : ∀ {mem mem' : Mem n}, bs.foldlM free mem = some mem' → Freed
    (fun x => ∃ b ∈ bs, Below mem b x) mem mem' := by
  induction bs with
  | nil =>
    intro mem mem' h
    cases h
    exact ⟨fun x hx => by simp at hx,fun _ _ => rfl⟩
  | cons b bs ih =>
    intro mem mem' h
    rw [List.foldlM_cons] at h
    obtain ⟨mem₁,hfirst,hrest⟩ := bind_eq_some_iff.mp h
    have h₁ := hfree mem mem₁ b hfirst
    have h₂ := ih hrest
    refine ⟨fun x hx => ?_,fun x hx => ?_⟩
    · have hgone : mem₁ x = none → mem' x = none := fun hnone =>
        (h₂.sub x).elim id fun hsame => hsame.trans hnone
      obtain ⟨d,hd,hbelow⟩ := hx
      rcases List.mem_cons.mp hd with rfl | hd
      · exact hgone (h₁.dead x hbelow)
      · rcases below_split h₁.same (fun _ _ hy hlink => hy.tail hlink) hbelow with hx | hx
        · exact hgone (h₁.dead x hx)
        · exact h₂.dead x ⟨d,hd,hx⟩
    · have hb : ¬Below mem b x := fun hbelow => hx ⟨b,List.mem_cons_self,hbelow⟩
      have hbs : ¬∃ d ∈ bs, Below mem₁ d x := by
        rintro ⟨d,hd,hbelow⟩
        exact hx ⟨d,List.mem_cons_of_mem b hd,below_of_sub h₁.sub hbelow⟩
      exact (h₂.same x hbs).trans (h₁.same x hb)

theorem below_iff_kids : Below mem a b ↔ b = a ∨ ∃ d ∈ kids mem a, Below mem d b := by
  rw [Below,Relation.ReflTransGen.cases_head_iff,eq_comm]

theorem destroyFrom_freed : ∀ (mem mem' : Mem n) (a : Fin n), destroyFrom k mem a = some mem' →
    Freed (Below mem a) mem mem' := by
  induction k with
  | zero =>
    intro mem mem' a h
    cases h
  | succ k ih =>
    intro mem mem' a h
    obtain ⟨w,hw,h⟩ := bind_eq_some_iff.mp h
    obtain ⟨mem₁,hkids,h⟩ := bind_eq_some_iff.mp h
    have hfreed := freed_children ih w.children hkids
    rw [←kids_of_mem hw] at hfreed
    cases h
    refine ⟨fun x hx => ?_,fun x hx => ?_⟩
    · by_cases hxa : x = a
      · rw [hxa,update_self]
      · rw [update_of_ne hxa]
        exact hfreed.dead x ((below_iff_kids.mp hx).resolve_left hxa)
    · rw [below_iff_kids,not_or] at hx
      rw [update_of_ne hx.1]
      exact hfreed.same x hx.2

theorem good_destroy (h : Focused u) :
    (∃ v, uiWidgetDestroy u (some a) = some v ∧ Focused v) ↔ CleanDestroy u a := by
  cases hfree : destroyFrom (n+1) u.mem a with
  | none => simp [uiWidgetDestroy,CleanDestroy,hfree]
  | some mem =>
    have hfreed := destroyFrom_freed _ _ _ hfree
    have hgood : (∃ v, uiWidgetDestroy u (some a) = some v ∧ Focused v) ↔
        Focused { u with mem := mem } := by
      simp [uiWidgetDestroy,hfree]
    have hclean : CleanDestroy u a ↔
        ∀ c f, (u.ctxs c).focused = some f → ¬Below u.mem a f :=
      and_iff_right ⟨mem,hfree⟩
    rw [hgood,hclean]
    constructor
    · intro hv c f hf hbelow
      obtain ⟨w,hw,-⟩ := (hv c).inTree f hf
      have hnone := hfreed.dead f hbelow
      rw [show mem f = some w from hw] at hnone
      cases hnone
    · intro hc
      refine focused_of_sub h rfl (fun b y hy => ?_) fun c f x hf hx => ?_
      · rcases hfreed.sub b with hb | hb
        · rw [show mem b = some y from hy] at hb
          cases hb
        · exact ⟨y,hb.symm.trans hy,rfl,rfl⟩
      · obtain ⟨-,-,-,r,hr,hbelow⟩ := (h c).inTree f hf
        have hstays := hc c f hf
        refine ⟨⟨x,(hfreed.same f hstays).trans hx,rfl⟩,r,hr,?_⟩
        exact (below_split hfreed.same (fun _ _ hy hlink => hy.tail hlink) hbelow).resolve_left
          hstays

end

section

def Sound (m : Option (Machine n)) : Prop := ∃ x, m = some x ∧ Focused x.ui

theorem sound_map {α : Type} {r : Option α} {g : α → Machine n} :
    Sound (r.map g) ↔ ∃ x, r = some x ∧ Focused (g x).ui := by
  cases r with
  | none => simp [Sound]
  | some x => simp [Sound]

section

variable (h : Focused u)
include h

theorem sound_same : Sound (some (⟨u,stack⟩ : Machine n)) := ⟨_,rfl,h⟩

theorem good_unfocus : Good ((uiWidgetUnfocus u a).bind (callBack .done fun u => some (u,[]))) ↔
    ∃ w, u.mem a = some w := by
  cases hw : u.mem a with
  | none => simp [Good,uiWidgetUnfocus,hw]
  | some w =>
    obtain ⟨v,heq,hflag,hctx⟩ := unfocus_eq h hw
    have hv := unfocus_focused h hw hflag hctx
    refine iff_of_true ?_ ⟨w,rfl⟩
    rw [heq]
    cases hblur : w.focused && w.onBlur with
    | true => exact ⟨(v,_),rfl,hv⟩
    | false => exact ⟨(v,_),rfl,hv⟩

theorem good_resume : Good (resume u k) ↔ CleanFrame u k := by
  cases k with
  | done => exact iff_of_true ⟨(u,[]),rfl,h⟩ trivial
  | take a => exact good_takeFocus h
  | focus a => exact good_focus h

theorem good_enter : Good (uiInputEvent u (some c) .enter) := by
  rw [uiInputEvent]
  cases hf : (u.ctxs c).focused with
  | none => exact ⟨(u,[]),rfl,h⟩
  | some f =>
    obtain ⟨x,hx,-⟩ := h.live hf
    exact ⟨(u,if x.onClick then [.done] else []),by simp [hx],h⟩

theorem perform_sound_iff : Sound (perform u stack op) ↔ CleanOp u stack op := by
  cases op with
  | addChild p d =>
    rw [perform,sound_map]
    cases p with
    | none => exact iff_of_true ⟨(u,-1),rfl,h⟩ trivial
    | some p =>
      cases d with
      | none => exact iff_of_true ⟨(u,-1),rfl,h⟩ trivial
      | some d => exact good_addChild h
  | removeChild p d =>
    rw [perform,sound_map]
    cases p with
    | none => exact iff_of_true ⟨(u,-1),rfl,h⟩ trivial
    | some p =>
      cases d with
      | none => exact iff_of_true ⟨(u,-1),rfl,h⟩ trivial
      | some d => exact good_removeChild h
  | destroy a =>
    rw [perform,sound_map]
    cases a with
    | none => exact iff_of_true ⟨u,rfl,h⟩ trivial
    | some a => exact good_destroy h
  | focus a =>
    cases a with
    | none => exact iff_of_true (sound_same h) trivial
    | some a =>
      rw [perform,sound_map]
      exact good_focus h
  | unfocus a =>
    cases a with
    | none => exact iff_of_true (sound_same h) trivial
    | some a =>
      rw [perform,sound_map]
      exact good_unfocus h
  | event c e =>
    rw [perform,sound_map]
    cases c with
    | none => exact iff_of_true ⟨(u,[]),rfl,h⟩ trivial
    | some c =>
      cases e with
      | tab => exact good_focusNext h
      | enter => exact iff_of_true (good_enter h) trivial
      | other => exact iff_of_true ⟨(u,[]),rfl,h⟩ trivial
  | ret =>
    cases stack with
    | nil => exact iff_of_true (sound_same h) fun k hk => by cases hk
    | cons k rest =>
      rw [perform,sound_map]
      refine (good_resume h).trans ⟨?_,fun hc => hc k rfl⟩
      rintro hk k' hk'
      cases hk'
      exact hk

end

/-- A step keeps the focus as it should be exactly when it is clean. -/
theorem step_sound_iff (m : Option (Machine n)) (op : Op n) (h : Sound m) :
    Sound (step m op) ↔ Clean m op := by
  obtain ⟨x,rfl,hx⟩ := h
  refine (perform_sound_iff hx).trans ⟨?_,fun hc => hc x rfl⟩
  rintro hop y hy
  cases hy
  exact hop

end

end TinyDeviceOs.Widgets
