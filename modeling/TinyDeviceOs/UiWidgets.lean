import TinyDeviceOs.Runs
import TinyDeviceOs.CyclicOrder

/-! The widgets of `ui.c`. A callback runs in the middle of a call; the code that is left when it
returns is a frame, so that a callback may make any calls of its own, and the next step is chosen
by whoever has control. -/
namespace TinyDeviceOs.Widgets

abbrev CtxId := ℕ

/-- Of a callback, whether it is set. -/
structure Widget (n : ℕ) where
  ctx : Option CtxId
  parent : Option (Fin n)
  children : List (Fin n)
  (visible enabled focused dirty onClick onFocus onBlur onValueChange : Bool)
  deriving DecidableEq

structure Context (n : ℕ) where
  (root focused : Option (Fin n))
  deriving DecidableEq

abbrev Mem (n : ℕ) := Fin n → Option (Widget n)

structure Ui (n : ℕ) where
  mem : Mem n
  ctxs : CtxId → Context n

variable (u : Ui n)

def Ui.put (a : Fin n) (w : Widget n) : Ui n :=
  { u with mem := Function.update u.mem a (some w) }

/-- Skipped for a widget without context. -/
def Ui.setFocused (c : Option CtxId) (f : Option (Fin n)) : Ui n :=
  match c with
  | none => u
  | some c => { u with ctxs := Function.update u.ctxs c { u.ctxs c with focused := f } }

def Ui.focusedOf (w : Widget n) : Option (Fin n) :=
  w.ctx.bind fun c => (u.ctxs c).focused

def uiMaxChildren : ℕ := 16

/-- No result where a freed widget would be used. -/
def uiWidgetAddChild : Option (Fin n) → Option (Fin n) → Option (Ui n × ℤ)
  | some p,some c => do
    let w ← u.mem p
    if uiMaxChildren ≤ w.children.length then
      some (u,-1)
    else
      let x ← u.mem c
      let u := u.put c { x with parent := some p }
      let w ← u.mem p
      some (u.put p { w with children := w.children++[c], dirty := true },0)
  | _,_ => some (u,-1)

def uiWidgetRemoveChild : Option (Fin n) → Option (Fin n) → Option (Ui n × ℤ)
  | some p,some c => do
    let w ← u.mem p
    if c ∈ w.children then
      let u := u.put p { w with children := w.children.erase c, dirty := true }
      let x ← u.mem c
      some (u.put c { x with parent := none },0)
    else
      some (u,-1)
  | _,_ => some (u,-1)

/-- Nested at most `k` deep. -/
def destroyFrom : ℕ → Mem n → Fin n → Option (Mem n)
  | 0,_,_ => none
  | k+1,mem,a => do
    let w ← mem a
    let mem ← w.children.foldlM (fun mem b => destroyFrom k mem b) mem
    some (Function.update mem a none)

/-- More than `n` widgets would come back to one and never end. -/
def uiWidgetDestroy : Option (Fin n) → Option (Ui n)
  | none => some u
  | some a => (destroyFrom (n+1) u.mem a).map fun mem => { u with mem := mem }

inductive Frame (n : ℕ)
  | done
  /-- the rest of `ui_widget_focus` after `ui_widget_unfocus` -/
  | take (a : Fin n)
  /-- the last line of `focus_next` -/
  | focus (a : Fin n)
  deriving DecidableEq

/-- With the frames pushed by the time a callback gets control. -/
abbrev Outcome (n : ℕ) := Option (Ui n × List (Frame n))

/-- `rest` follows, or the frame `k` for it after a callback. -/
def callBack (k : Frame n) (rest : Ui n → Outcome n) (r : Ui n × Bool) : Outcome n :=
  if r.2 then some (r.1,[k]) else rest r.1

/-- Also tells whether `on_blur` is called. -/
def uiWidgetUnfocus (a : Fin n) : Option (Ui n × Bool) := do
  let w ← u.mem a
  if w.focused then
    let v := u.put a { w with focused := false }
    some (if u.focusedOf w = some a then v.setFocused w.ctx none else v,w.onBlur)
  else
    some (u,false)

/-- `ui_widget_focus` from `widget->focused = true` on. -/
def takeFocus (a : Fin n) : Outcome n := do
  let w ← u.mem a
  some ((u.put a { w with focused := true }).setFocused w.ctx (some a),
    if w.onFocus then [.done] else [])

/-- The one that `ui_widget_focus` unfocuses first. -/
def Ui.other (w : Widget n) (a : Fin n) : Option (Fin n) :=
  (u.focusedOf w).filter (· ≠ a)

def uiWidgetFocus (a : Fin n) : Outcome n := do
  let w ← u.mem a
  if w.enabled then
    match u.other w a with
    | some f => (uiWidgetUnfocus u f).bind (callBack (.take a) fun u => takeFocus u a)
    | none => takeFocus u a
  else
    some (u,[])

def widgetIsFocusable (w : Widget n) : Bool :=
  w.enabled && w.visible && (w.onClick || w.onValueChange)

def uiMaxFocusable : ℕ := 64

/-- Nested at most `k` deep. -/
def collectFocusable (mem : Mem n) : ℕ → List (Fin n) → Fin n → Option (List (Fin n))
  | 0,out,_ => if uiMaxFocusable ≤ out.length then some out else none
  | k+1,out,a =>
    if uiMaxFocusable ≤ out.length then some out
    else do
      let w ← mem a
      w.children.foldlM (fun out b => collectFocusable mem k out b)
        (if widgetIsFocusable w then out++[a] else out)

def Ui.tabOrder (c : CtxId) : Option (List (Fin n)) :=
  match (u.ctxs c).root with
  | none => some []
  | some r => collectFocusable u.mem (n+1) [] r

def focusNext (c : CtxId) : Outcome n := do
  let out ← u.tabOrder c
  match CyclicOrder.next out (u.ctxs c).focused with
  | none => some (u,[])
  | some b =>
    match (u.ctxs c).focused with
    | some f => (uiWidgetUnfocus u f).bind (callBack (.focus b) fun u => uiWidgetFocus u b)
    | none => uiWidgetFocus u b

/-- The key of an `INPUT_EVENT_KEY_DOWN`, or any other. -/
inductive Event
  | tab
  | enter
  | other
  deriving DecidableEq

def uiInputEvent : Option CtxId → Event → Outcome n
  | none,_ => some (u,[])
  | some c,.tab => focusNext u c
  | some c,.enter =>
    match (u.ctxs c).focused with
    | none => some (u,[])
    | some f => do
      let w ← u.mem f
      some (u,if w.onClick then [.done] else [])
  | some _,.other => some (u,[])

def resume : Frame n → Outcome n
  | .done => some (u,[])
  | .take a => takeFocus u a
  | .focus a => uiWidgetFocus u a

inductive Op (n : ℕ)
  | addChild (parent child : Option (Fin n))
  | removeChild (parent child : Option (Fin n))
  | destroy (widget : Option (Fin n))
  | focus (widget : Option (Fin n))
  | unfocus (widget : Option (Fin n))
  | event (c : Option CtxId) (e : Event)
  /-- the innermost callback returns -/
  | ret

structure Machine (n : ℕ) where
  ui : Ui n
  stack : List (Frame n)

def perform (stack : List (Frame n)) : Op n → Option (Machine n)
  | .addChild p c => (uiWidgetAddChild u p c).map fun r => ⟨r.1,stack⟩
  | .removeChild p c => (uiWidgetRemoveChild u p c).map fun r => ⟨r.1,stack⟩
  | .destroy a => (uiWidgetDestroy u a).map fun v => ⟨v,stack⟩
  | .focus none => some ⟨u,stack⟩
  | .focus (some a) => (uiWidgetFocus u a).map fun r => ⟨r.1,r.2++stack⟩
  | .unfocus none => some ⟨u,stack⟩
  | .unfocus (some a) =>
    ((uiWidgetUnfocus u a).bind (callBack .done fun u => some (u,[]))).map fun r =>
      ⟨r.1,r.2++stack⟩
  | .event c e => (uiInputEvent u c e).map fun r => ⟨r.1,r.2++stack⟩
  | .ret =>
    match stack with
    | [] => some ⟨u,[]⟩
    | k::rest => (resume u k).map fun r => ⟨r.1,r.2++rest⟩

/-- Nothing is known once a freed widget has been used. -/
def step (m : Option (Machine n)) (op : Op n) : Option (Machine n) :=
  m.bind fun m => perform m.ui m.stack op

def start : Option (Machine n) := some ⟨u,[]⟩

end TinyDeviceOs.Widgets
