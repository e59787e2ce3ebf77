import TinyDeviceOs.PyText

/-! The reader of `device_config.yaml`: `parse_simple_yaml` with its stack of open containers. -/
namespace TinyDeviceOs.Yaml

open PyText

inductive Value
  | null
  | bool (b : Bool)
  | int (z : ℤ)
  | str (s : Str)
  | list (xs : List Value)
  | map (kvs : List (Str × Value))

/-- In the order of keys, as equal dicts may be assigned in any order. -/
def setKey (k : Str) (v : Value) : List (Str × Value) → List (Str × Value)
  | [] => [(k,v)]
  | (k',v')::kvs =>
    if k = k' then (k,v)::kvs
    else if k < k' then (k,v)::(k',v')::kvs
    else (k',v')::setKey k v kvs

def quoted (text : Str) : Bool :=
  (text.head? == some '\'' || text.head? == some '"') && text.getLast? == text.head? &&
    2 ≤ text.length

variable (wide : Char → Option ℕ)

/-- Before the case of a comment. -/
def parsePlain (text : Str) : Option Value :=
  if text = [] then some (.str [])
  else if quoted text then some (.str text.tail.dropLast)
  else if lower text ∈ ["true".toList,"yes".toList,"on".toList] then some (.bool true)
  else if lower text ∈ ["false".toList,"no".toList,"off".toList] then some (.bool false)
  else if lower text ∈ ["null".toList,"none".toList,"~".toList] then some .null
  else ((readHex text).or (readInt wide text)).map .int

section

variable (raw : Str)

/-- Before a comment there is no `#`, so `_parse_scalar` calls itself once. -/
def parseScalar : Value :=
  let text := strip raw
  match parsePlain wide text with
  | some v => v
  | none =>
    if '#' ∈ text ∧ text.head? ≠ some '#' then
      let text := strip (rstrip (text.takeWhile (· != '#')))
      (parsePlain wide text).getD (.str text)
    else .str text

def skipped : Bool := strip raw == [] || (lstrip raw).head? == some '#'

def indentOf : ℕ := (raw.takeWhile (· == ' ')).length

/-- `startswith("- ")`. -/
def dash (s : Str) : Bool := ['-',' '].isPrefixOf s

/-- What a line says, apart from where it says it. -/
inductive Entry
  | item (v : Value)
  | itemMap (k : Str) (v : Value)
  | scalar (k : Str) (v : Value)
  /-- a key without value: a container follows -/
  | opens (k : Str)

def entryOf (line : Str) : Option Entry :=
  if dash line then
    let body := strip (line.drop 2)
    if ':' ∈ body then
      some (.itemMap (strip (partitionColon body).1) (parseScalar wide (partitionColon body).2))
    else
      some (.item (parseScalar wide body))
  else if ':' ∈ line then
    let key := strip (partitionColon line).1
    let rest := strip (partitionColon line).2
    if rest = [] ∨ rest.head? = some '#' then some (.opens key)
    else some (.scalar key (parseScalar wide rest))
  else none

def nextIsList (indent : ℕ) : List Str → Bool
  | [] => false
  | peek::lines =>
    if skipped peek then nextIsList indent lines
    else if indentOf peek ≤ indent then false
    else dash (lstrip peek)

inductive Box
  | list (xs : List Value)
  | map (kvs : List (Str × Value))

def Box.value : Box → Value
  | .list xs => .list xs
  | .map kvs => .map kvs

/-- With its key in the one below, none for an item of a list. -/
structure Open where
  indent : ℕ
  key : Option Str
  box : Box

/-- Open containers are put into place when they leave the stack. -/
structure State where
  root : Str → Option Value
  stack : List Open

def Box.put (box : Box) (key : Option Str) (v : Value) : Box :=
  match box,key with
  | .map kvs,some k => .map (setKey k v kvs)
  | .list xs,none => .list (xs++[v])
  | box,_ => box

variable (s : State)

/-- `parent[key] = v`, or `parent.append(v)`. -/
def assign (key : Option Str) (v : Value) : State :=
  match s.stack,key with
  | [],some k => { s with root := Function.update s.root k (some v) }
  | [],none => s
  | o::os,key => { s with stack := { o with box := o.box.put key v }::os }

/-- With the container above it, if one was taken off. -/
def Open.receive (o : Open) : Option (Option Str × Value) → Open
  | none => o
  | some (key,v) => { o with box := o.box.put key v }

/-- As long as their indent satisfies `p`. -/
def popWhile (p : ℕ → Bool) (root : Str → Option Value) (into : Option (Option Str × Value)) :
    List Open → State
  | [] =>
    match into with
    | none => ⟨root,[]⟩
    | some (key,v) => assign ⟨root,[]⟩ key v
  | o::os =>
    if p o.indent then popWhile p root (some (o.key,(o.receive into).box.value)) os
    else ⟨root,o.receive into::os⟩

/-- `while len(stack) > 1 and indent <= stack[-1][0]: stack.pop()`. -/
def popTo (indent : ℕ) (s : State) : State :=
  popWhile (fun i => indent ≤ i) s.root none s.stack

def shut : Str → Option Value := (popWhile (fun _ => true) s.root none s.stack).root

inductive ParseError
  | listItem (line : Str)
  | expected (line : Str)
  | nonDict (key : Str)

def State.inList : Bool :=
  match s.stack with
  | ⟨_,_,.list _⟩::_ => true
  | _ => false

def place (indent : ℕ) (line : Str) (isList : Bool) (s : State) : Entry → Except ParseError State
  | .item v => if s.inList then .ok (assign s none v) else .error (.listItem line)
  | .itemMap k v =>
    if s.inList then .ok { s with stack := ⟨indent,none,.map [(k,v)]⟩::s.stack }
    else .error (.listItem line)
  | .scalar k v => if s.inList then .error (.nonDict k) else .ok (assign s (some k) v)
  | .opens k =>
    if s.inList then .error (.nonDict k)
    else .ok { s with stack := ⟨indent,some k,if isList then .list [] else .map []⟩::s.stack }

def step (lines : List Str) (s : State) : Except ParseError State :=
  if skipped raw then .ok s
  else
    match entryOf wide (strip raw) with
    | none => .error (.expected (strip raw))
    | some e =>
      place (indentOf raw) (strip raw) (nextIsList (indentOf raw) lines) (popTo (indentOf raw) s) e

end

def run : State → List Str → Except ParseError State
  | s,[] => .ok s
  | s,raw::lines => (step wide raw lines s).bind fun s => run s lines

def empty : State := ⟨fun _ => none,[]⟩

def parseLines (lines : List Str) : Except ParseError (Str → Option Value) :=
  (run wide empty (lines.map chomp)).map shut

def parseSimpleYaml (text : Str) : Except ParseError (Str → Option Value) :=
  parseLines wide (splitLines text)

variable {wide} {s : State} {o : Open}

def Plain (B : List Str) : Prop := ∀ i, nextIsList i B = false

theorem plain_nil : Plain [] := fun _ => rfl

variable {p : ℕ → Bool} {Q : State → Prop}

/-- The lines that the reader takes, and what they do. -/
theorem place_cases (h : place n line isList s e = .ok s') :
    (∃ v, e = .item v ∧ s' = assign s none v) ∨
    (∃ k v, e = .itemMap k v ∧ s' = { s with stack := ⟨n,none,.map [(k,v)]⟩::s.stack }) ∨
    (∃ k v, e = .scalar k v ∧ s.inList = false ∧ s' = assign s (some k) v) ∨
    ∃ k, e = .opens k ∧ s.inList = false ∧
      s' = { s with stack := ⟨n,some k,if isList then .list [] else .map []⟩::s.stack } := by
  cases e <;> rw [place] at h <;> split at h <;> cases h
  · exact .inl ⟨_,rfl,rfl⟩
  · exact .inr (.inl ⟨_,_,rfl,rfl⟩)
  · exact .inr (.inr (.inl ⟨_,_,rfl,Bool.eq_false_of_not_eq_true (by assumption),rfl⟩))
  · exact .inr (.inr (.inr ⟨_,rfl,Bool.eq_false_of_not_eq_true (by assumption),rfl⟩))

theorem step_cases (h : step wide raw B s = .ok s') :
    (skipped raw = true ∧ s' = s) ∨ (skipped raw = false ∧ ∃ e, entryOf wide (strip raw) = some e ∧
      place (indentOf raw) (strip raw) (nextIsList (indentOf raw) B) (popTo (indentOf raw) s) e =
        .ok s') := by
  rw [step] at h
  split at h
  next hskip =>
    cases h
    exact .inl ⟨hskip,rfl⟩
  next hskip =>
    cases he : entryOf wide (strip raw) with
    | none =>
      rw [he] at h
      cases h
    | some e =>
      rw [he] at h
      exact .inr ⟨by simpa using hskip,e,rfl,h⟩

theorem run_cons (h : run wide s (raw::B) = .ok s') :
    ∃ t, step wide raw B s = .ok t ∧ run wide t B = .ok s' := by
  rw [run] at h
  cases hstep : step wide raw B s with
  | error e =>
    rw [hstep] at h
    cases h
  | ok t =>
    rw [hstep] at h
    exact ⟨t,rfl,h⟩

theorem exists_shut (h : (run wide s B).map shut = .ok r) : ∃ t, run wide s B = .ok t ∧ shut t =
    r := by
  cases ht : run wide s B with
  | error e =>
    rw [ht] at h
    cases h
  | ok t =>
    rw [ht] at h
    exact ⟨t,rfl,Except.ok.inj h⟩

theorem plain_skipped (h : skipped raw = true) (hB : Plain B) : Plain (raw::B) := by
  intro i
  rw [nextIsList,if_pos h]
  exact hB i

theorem plain_cons (h : dash (lstrip raw) = false) (hraw : skipped raw = false) :
    Plain (raw::B) := by
  intro i
  rw [nextIsList,if_neg (by simp [hraw]),h]
  simp

theorem nextIsList_append (hB : Plain B) : nextIsList i (A++B) = nextIsList i A := by
  induction A with
  | nil => exact hB i
  | cons raw A ih =>
    rw [List.cons_append,nextIsList,nextIsList,ih]

/-- If they do not start with a list. -/
theorem run_append (hB : Plain B) :
    run wide s (A++B) = (run wide s A).bind fun s => run wide s B := by
  induction A generalizing s with
  | nil => rfl
  | cons raw A ih =>
    rw [List.cons_append,run,run,step,step,nextIsList_append hB]
    generalize (if skipped raw = true then _ else _ : Except ParseError State) = r
    cases r with
    | error e => rfl
    | ok t => exact ih

theorem exists_run_append (hB : Plain B) (h : run wide s (A++B) = .ok s') :
    ∃ t, run wide s A = .ok t ∧ run wide t B = .ok s' := by
  rw [run_append hB] at h
  cases ht : run wide s A with
  | error e =>
    rw [ht] at h
    cases h
  | ok t =>
    rw [ht] at h
    exact ⟨t,rfl,h⟩

theorem popWhile_some : popWhile p root (some (key,v)) os = popWhile p (assign ⟨root,os⟩ key
    v).root none (assign ⟨root,os⟩ key v).stack := by
  cases os with
  | nil => cases key <;> rfl
  | cons o os => rfl

theorem popWhile_cons (h : p o.indent = true) : popWhile p root none (o::os) = popWhile p
    (assign ⟨root,os⟩ o.key o.box.value).root none (assign ⟨root,os⟩ o.key o.box.value).stack := by
  rw [popWhile,if_pos h,popWhile_some]
  rfl

theorem shut_cons : shut ⟨root,o::os⟩ = shut (assign ⟨root,os⟩ o.key o.box.value) := by
  rw [shut,shut,popWhile_cons rfl]

/-- What putting one container into place keeps, putting several keeps. -/
theorem popWhile_rule (hclose : ∀ root o os, Q ⟨root,o::os⟩ → Q (assign ⟨root,os⟩ o.key o.box.value)) (h : Q s) : Q (popWhile p s.root none s.stack) := by
  obtain ⟨root,os⟩ := s
  induction hn : os.length generalizing root os with
  | zero =>
    rw [List.length_eq_zero_iff.mp hn] at h ⊢
    exact h
  | succ n ih =>
    cases os with
    | nil => cases hn
    | cons o os =>
      cases hp : p o.indent with
      | false =>
        rw [popWhile,if_neg (by simp [hp])]
        exact h
      | true =>
        rw [popWhile_cons hp]
        refine ih _ _ (hclose root o os h) ?_
        have hlen : os.length = n := by simpa using hn
        cases os with
        | nil =>
          cases o.key with
          | none => exact hlen
          | some k => exact hlen
        | cons o' os => exact hlen

/-- The next line that says something is not deeper. -/
def Stops (indent : ℕ) : List Str → Prop
  | [] => True
  | raw::lines => if skipped raw then Stops indent lines else indentOf raw ≤ indent

theorem run_close (h : Stops o.indent B) (root : Str → Option Value) (os : List Open) :
    (run wide ⟨root,o::os⟩ B).map shut =
      (run wide (assign ⟨root,os⟩ o.key o.box.value) B).map shut := by
  induction B with
  | nil => exact congrArg Except.ok shut_cons
  | cons raw B ih =>
    rw [Stops] at h
    rw [run,run,step,step]
    cases hraw : skipped raw with
    | true =>
      rw [hraw,if_pos rfl] at h
      exact ih h
    | false =>
      rw [hraw,if_neg (by simp)] at h
      have hpop : popTo (indentOf raw) ⟨root,o::os⟩ =
          popTo (indentOf raw) (assign ⟨root,os⟩ o.key o.box.value) :=
        popWhile_cons (by simpa using h)
      simp only [hpop,Bool.false_eq_true,if_false]

theorem popWhile_all (h : ∀ o ∈ os, p o.indent = true) : popWhile p root into os = popWhile (fun
    _ => true) root into os := by
  induction os generalizing into with
  | nil => cases into <;> rfl
  | cons o os ih =>
    rw [popWhile,popWhile,if_pos (h o List.mem_cons_self),if_pos rfl]
    exact ih fun d hd => h d (List.mem_cons_of_mem o hd)

theorem popWhile_true_stack (into : Option (Option Str × Value)) (os : List Open)
    (root : Str → Option Value) : (popWhile (fun _ => true) root into os).stack = [] := by
  induction os generalizing into with
  | nil =>
    rcases into with _ | ⟨_ | k,v⟩ <;> rfl
  | cons o os ih =>
    rw [popWhile,if_pos rfl]
    exact ih _

theorem popWhile_true : popWhile (fun _ => true) s.root none s.stack = ⟨shut s,[]⟩ := by
  have hstack := popWhile_true_stack none s.stack s.root
  rw [shut]
  generalize popWhile (fun _ => true) s.root none s.stack = t at hstack ⊢
  cases t
  cases hstack
  rfl

theorem popTo_root (h : ∀ o ∈ s.stack, indent ≤ o.indent) : popTo indent s = ⟨shut s,[]⟩ := by
  rw [popTo,popWhile_all fun o ho => by simpa using h o ho,popWhile_true]

theorem shut_rule (hclose : ∀ root o os, Q ⟨root,o::os⟩ → Q (assign ⟨root,os⟩ o.key o.box.value))
    (h : Q s) : Q ⟨shut s,[]⟩ := by
  rw [←popWhile_true]
  exact popWhile_rule hclose h

def onTop (a b : Str → Option Value) : Str → Option Value := fun k => (a k).or (b k)

def lift (m : Str → Option Value) (s : State) : State := ⟨onTop s.root m,s.stack⟩

theorem onTop_update : onTop (Function.update a k (some v)) m = Function.update (onTop a m) k
    (some v) := by
  funext j
  by_cases hj : j = k
  · subst hj
    simp [onTop]
  · simp [onTop,hj]

theorem assign_lift (key : Option Str) (v : Value) :
    assign (lift m s) key v = lift m (assign s key v) := by
  obtain ⟨root,_ | ⟨o,os⟩⟩ := s
  · cases key with
    | none => rfl
    | some k => exact congrArg (State.mk · []) onTop_update.symm
  · rfl

theorem popWhile_lift (p : ℕ → Bool) (into : Option (Option Str × Value)) (os : List Open)
    (root : Str → Option Value) :
    popWhile p (onTop root m) into os = lift m (popWhile p root into os) := by
  induction os generalizing into with
  | nil =>
    rcases into with _ | ⟨key,v⟩
    · rfl
    · exact assign_lift (s:=⟨root,[]⟩) key v
  | cons o os ih =>
    rw [popWhile,popWhile]
    split
    · exact ih _
    · rfl

theorem shut_lift : shut (lift m s) = onTop (shut s) m := by
  rw [shut,lift,popWhile_lift]
  rfl

theorem place_lift : place indent line isList (lift m s) e = (place indent line isList s e).map
    (lift m) := by
  have hin : (lift m s).inList = s.inList := rfl
  cases e with
  | item v =>
    rw [place,place,hin,assign_lift]
    split <;> rfl
  | itemMap k v =>
    rw [place,place,hin]
    split <;> rfl
  | scalar k v =>
    rw [place,place,hin,assign_lift]
    split <;> rfl
  | opens k =>
    rw [place,place,hin]
    split <;> rfl

theorem step_lift : step wide raw B (lift m s) = (step wide raw B s).map (lift m) := by
  rw [step,step]
  split
  · rfl
  cases entryOf wide (strip raw) with
  | none => rfl
  | some e =>
    have hpop : popTo (indentOf raw) (lift m s) = lift m (popTo (indentOf raw) s) :=
      popWhile_lift _ _ _ _
    simp only [hpop,place_lift]

theorem run_lift : run wide (lift m s) B = (run wide s B).map (lift m) := by
  induction B generalizing s with
  | nil => rfl
  | cons raw B ih =>
    rw [run,run,step_lift]
    cases step wide raw B s with
    | error e => rfl
    | ok t => exact ih

theorem run_root (root : Str → Option Value) : (run wide ⟨root,[]⟩ B).map shut = ((run wide
    empty B).map shut).map fun r => onTop r root := by
  have hlift : (⟨root,[]⟩ : State) = lift root empty := by
    rw [lift]
    congr 1
  rw [hlift,run_lift]
  cases run wide empty B with
  | error e => rfl
  | ok t => exact congrArg Except.ok shut_lift

end TinyDeviceOs.Yaml
