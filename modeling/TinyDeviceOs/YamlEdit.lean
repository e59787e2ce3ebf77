import TinyDeviceOs.YamlConfig

/-! The editor of `device_config.yaml`: `_update_yaml_field` replaces the lines of one field. -/
namespace TinyDeviceOs.Yaml

open PyText List

inductive Scalar
  | bool (b : Bool)
  | int (z : ℤ)

/-- Names, a dict from names to flags or numbers, or a name. -/
inductive FieldValue
  | list (items : List Str)
  | map (entries : List (Str × Scalar))
  | ident (s : Str)

def showScalar : Scalar → Str
  | .bool true => "true".toList
  | .bool false => "false".toList
  | .int z => showInt z

variable (indent : ℕ)

def pad : Str := replicate indent ' '

def headLine (field : Str) : FieldValue → Str
  | .ident s => pad indent++(field++ ':':: ' '::s)++['\n']
  | .list _ => pad indent++(field++[':'])++['\n']
  | .map _ => pad indent++(field++[':'])++['\n']

def itemLines : FieldValue → List Str
  | .list items => items.map fun item => pad indent++('-':: ' '::item)++['\n']
  | .map entries => entries.map fun e => pad indent++(e.1++ ':':: ' '::showScalar e.2)++['\n']
  | .ident _ => []

def written (field : Str) (v : FieldValue) : List Str :=
  headLine indent field v::itemLines (indent+2) v

/-- `stripped.startswith(f"{field}:")`. -/
def starts (field line : Str) : Bool := (field++[':']).isPrefixOf (lstrip line)

/-- `len(line) - len(line.lstrip())`. -/
def leading (line : Str) : ℕ := (line.takeWhile isSpace).length

def stops (line : Str) : Bool :=
  lstrip line != [] && (lstrip line).head? != some '#' && leading line ≤ indent

def appendix (field : Str) : FieldValue → Str
  | .ident s => (written 0 field (.ident s)).flatten
  | .list items => '\n'::(written 0 field (.list items)).flatten
  | .map entries => '\n'::(written 0 field (.map entries)).flatten

def updateYamlField (text field : Str) (v : FieldValue) : Str :=
  match (splitLines text).dropWhile (!starts field ·) with
  | line::after =>
    ((splitLines text).takeWhile (!starts field ·)++written (leading line) field v++
      after.dropWhile (!stops (leading line) ·)).flatten
  | [] => text++appendix field v

def identStart (c : Char) : Bool :=
  (65 ≤ c.toNat && c.toNat < 91) || c.toNat == 95 || (97 ≤ c.toNat && c.toNat < 123)

def identChar (c : Char) : Bool := identStart c || (48 ≤ c.toNat && c.toNat < 58)

def keywords : List Str :=
  ["true".toList,"yes".toList,"on".toList,"false".toList,"no".toList,"off".toList,"null".toList,
    "none".toList,"~".toList]

def IsIdent (s : Str) : Prop :=
  (∃ c ∈ s.head?, identStart c = true) ∧ (∀ c ∈ s, identChar c = true) ∧ lower s ∉ keywords

def FieldValue.Proper : FieldValue → Prop
  | .list items => ∀ item ∈ items, IsIdent item
  | .map entries => (entries.map Prod.fst).Nodup ∧ ∀ e ∈ entries, IsIdent e.1
  | .ident s => IsIdent s

structure IsKey (field : Str) : Prop where
  stripped : strip field = field
  colon : ':' ∉ field
  unbroken : Unbroken field
  hash : field.head? ≠ some '#'
  dash : dash field = false

def Scalar.value : Scalar → Value
  | .bool b => .bool b
  | .int z => .int z

def FieldValue.value : FieldValue → Value
  | .list items => .list (items.map .str)
  | .map entries => .map (entries.foldl (fun kvs e => setKey e.1 e.2.value kvs) [])
  | .ident s => .str s

/-- The line of an empty list is that of an empty dict. -/
def FieldValue.readBack : FieldValue → Value
  | .list [] => .map []
  | v => v.value

variable {wide : Char → Option ℕ} {s item field line : Str} {c : Char} {v : FieldValue}

theorem identChar_bounds (h : identChar c = true) : 48 ≤ c.toNat ∧ c.toNat < 123 ∧
    c.toNat ≠ 58 ∧ c.toNat ≠ 96 := by
  simp only [identChar,identStart,Bool.or_eq_true,Bool.and_eq_true,decide_eq_true_eq,
    beq_iff_eq] at h
  omega

theorem identChar_space (h : identChar c = true) : isSpace c = false := by
  have hb := identChar_bounds h
  simp only [isSpace,decide_eq_false_iff_not,mem_cons,not_mem_nil,or_false]
  omega

theorem isBreak_of_not_space (h : isSpace c = false) : isBreak c = false := by
  cases hb : isBreak c with
  | false => rfl
  | true =>
    rw [isSpace_of_isBreak hb] at h
    cases h

section

variable (h : IsIdent s)
include h

theorem IsIdent.space : ∀ c ∈ s, isSpace c = false := fun c hc =>
  identChar_space (h.2.1 c hc)

theorem IsIdent.unbroken : Unbroken s := fun c hc =>
  isBreak_of_not_space (h.space c hc)

theorem IsIdent.ne (hd : identChar c = false) : c ∉ s := fun hc => by
  rw [h.2.1 c hc] at hd
  cases hd

theorem IsIdent.exists_cons : ∃ c t, s = c::t ∧ identStart c = true := by
  obtain ⟨c,hc,hstart⟩ := h.1
  obtain ⟨t,rfl⟩ := head?_eq_some_iff.mp hc
  exact ⟨c,t,rfl,hstart⟩

theorem IsIdent.last : ∀ c ∈ s.getLast?, isSpace c = false := fun c hc =>
  h.space c (mem_of_mem_getLast? hc)

theorem IsIdent.strip_eq : strip s = s :=
  strip_eq_self (fun c hc => h.space c (mem_of_mem_head? hc)) h.last

theorem parseScalar_ident : parseScalar wide s = .str s := by
  obtain ⟨c,t,rfl,hstart⟩ := h.exists_cons
  have hstartb : 65 ≤ c.toNat := by
    simp only [identStart,Bool.or_eq_true,Bool.and_eq_true,decide_eq_true_eq,beq_iff_eq] at hstart
    omega
  have hne : ∀ d : Char, d.toNat < 65 → c ≠ d := by
    rintro d hd rfl
    omega
  have hkey := h.2.2
  simp only [keywords,mem_cons,not_mem_nil,or_false,not_or] at hkey
  have hquoted : quoted (c::t) = false := by
    simp [quoted,hne '\'' (by decide),hne '"' (by decide)]
  have hhex : readHex (c::t) = none := by
    rw [readHex]
    rintro ds hds
    exact hne '0' (by decide) (List.cons.inj hds).1
  have hdigit : digitOf wide c = none := by
    have hb := identChar_bounds (h.2.1 c List.mem_cons_self)
    rw [digitOf,if_pos (by omega),if_neg (by omega)]
  have hint : readInt wide (c::t) = none := by
    rw [readInt]
    · rw [readDigits,if_neg (by simp),List.mapM_cons,hdigit]
      rfl
    · rintro ds hds
      exact hne '-' (by decide) (List.cons.inj hds).1
  have hplain : parsePlain wide (c::t) = none := by
    simp only [parsePlain,hquoted,hhex,hint,List.mem_cons,List.not_mem_nil,hkey,reduceCtorEq,
      if_false,or_self,Bool.false_eq_true,Option.or_none,Option.map_none]
  rw [parseScalar,h.strip_eq,hplain]
  exact if_neg fun hhash => h.ne (c:= '#') (by decide) hhash.1

end

theorem mem_showInt (h : c ∈ showInt z) : c.toNat = 45 ∨ 48 ≤ c.toNat ∧ c.toNat < 58 := by
  cases z with
  | ofNat n => exact .inr (mem_showNat h)
  | negSucc n =>
    rcases List.mem_cons.mp h with rfl | h
    · exact .inl rfl
    · exact .inr (mem_showNat h)

theorem showInt_ne_nil (z : ℤ) : showInt z ≠ [] := by
  cases z with
  | ofNat n => exact showNat_ne_nil
  | negSucc n => simp [showInt]

theorem showInt_space (h : c ∈ showInt z) : isSpace c = false := by
  have hb := mem_showInt h
  simp only [isSpace,decide_eq_false_iff_not,List.mem_cons,List.not_mem_nil,or_false]
  omega

theorem lower_head_showInt (h : (lower (showInt z)).head? = some d) : d.toNat = 45 ∨ 48 ≤
    d.toNat ∧ d.toNat < 58 := by
  obtain ⟨c,hc,rfl⟩ : ∃ c, (showInt z).head? = some c ∧ c.toLower = d := by
    simpa [lower] using h
  have hb := mem_showInt (List.mem_of_mem_head? hc)
  have hsame : c.toLower = c := by
    rw [←Char.ofNat_toNat c]
    generalize c.toNat = k at hb
    rcases hb with rfl | ⟨hlow,hhigh⟩
    · rfl
    · interval_cases k <;> rfl
  rwa [hsame]

theorem strip_showScalar (v : Scalar) : strip (showScalar v) = showScalar v := by
  rcases v with (_ | _) | z
  · rfl
  · rfl
  · exact strip_eq_self (fun c hc => showInt_space (List.mem_of_mem_head? hc))
      fun c hc => showInt_space (List.mem_of_mem_getLast? hc)

theorem parseScalar_showScalar (v : Scalar) : parseScalar wide (showScalar v) = v.value := by
  rcases v with (_ | _) | z
  · rfl
  · rfl
  · have hstrip := strip_showScalar (.int z)
    rw [showScalar] at hstrip ⊢
    have hword : ∀ w : Str, w.head?.any (58 ≤ ·.toNat) = true → lower (showInt z) ≠ w := by
      rintro w hw rfl
      obtain ⟨d,hhead,hhigh⟩ := (Option.any_eq_true _ _).mp hw
      have hlow := lower_head_showInt hhead
      have hhigh : 58 ≤ d.toNat := by simpa using hhigh
      omega
    have hquoted : quoted (showInt z) = false := by
      have hq : ∀ q : Char, q.toNat < 45 → (showInt z).head? ≠ some q := by
        intro q hq hhead
        have := mem_showInt (List.mem_of_mem_head? hhead)
        omega
      simp [quoted,hq '\'' (by decide),hq '"' (by decide)]
    have hhex : readHex (showInt z) = none := by
      rw [readHex]
      intro ds hds
      have hx := mem_showInt (c:= 'x') (z:=z) (by rw [hds]; simp)
      exact absurd hx (by decide)
    have hplain : parsePlain wide (showInt z) = some (.int z) := by
      simp only [parsePlain,hquoted,hhex,readInt_showInt,showInt_ne_nil,mem_cons,
        not_mem_nil,hword "true".toList rfl,hword "yes".toList rfl,hword "on".toList rfl,
        hword "false".toList rfl,hword "no".toList rfl,hword "off".toList rfl,
        hword "null".toList rfl,hword "none".toList rfl,hword "~".toList rfl,
        if_false,or_self,Bool.false_eq_true,Option.none_or,Option.map_some]
    rw [parseScalar,hstrip,hplain]
    rfl

section

structure Solid (body : Str) : Prop where
  head : ∃ c ∈ body.head?, isSpace c = false ∧ c ≠ '#'
  last : ∀ c ∈ body.getLast?, isSpace c = false
  unbroken : Unbroken body

variable {body last : Str} {n i : ℕ} {post : List Str} {st : State} {e : Entry} {root : Str → Option
  Value} {os : List Open}

theorem Solid.head_space (h : Solid body) : ∀ c ∈ body.head?, isSpace c = false := by
  obtain ⟨d,hd,hspace,-⟩ := h.head
  intro c hc
  cases hd.symm.trans hc
  exact hspace

theorem pad_space : ∀ c ∈ pad n, isSpace c = true := fun c hc => by
  rw [eq_of_mem_replicate hc]
  decide

section

variable (hblank : ∀ c ∈ last, isSpace c = true) (h : Solid body)
include hblank h

theorem lstrip_blank : lstrip (last++body) = body := by
  rw [lstrip_of_space hblank,lstrip_eq_self h.head_space]

theorem strip_blank : strip (last++body) = body := by
  rw [strip,lstrip_blank hblank h,rstrip_eq_self h.last]

end

theorem indentOf_solid (h : Solid body) : indentOf (last++body) = indentOf last := by
  obtain ⟨c,hc,hspace,-⟩ := h.head
  obtain ⟨t,rfl⟩ := head?_eq_some_iff.mp hc
  have hne : (c == ' ') = false := by
    rw [beq_eq_false_iff_ne]
    rintro rfl
    exact absurd hspace (by decide)
  rw [indentOf,indentOf,takeWhile_append,takeWhile_cons,hne]
  split
  next hall => simp [hall]
  · rfl

theorem indentOf_pad : indentOf (pad n) = n := by simp [indentOf,pad]

theorem unbroken_append (hs : Unbroken s) (ht : Unbroken t) : Unbroken (s++t) :=
  forall_mem_append.mpr ⟨hs,ht⟩

theorem unbroken_pad (h : Unbroken body) : Unbroken (pad n++body) := by
  refine unbroken_append (fun c hc => ?_) h
  rw [eq_of_mem_replicate hc]
  decide

section

variable (hblank : ∀ c ∈ last, isSpace c = true) (h : Solid body)
include hblank h

theorem skipped_blank : skipped (last++body) = false := by
  obtain ⟨c,hc,-,hhash⟩ := h.head
  obtain ⟨t,rfl⟩ := head?_eq_some_iff.mp hc
  simp [skipped,strip_blank hblank h,lstrip_blank hblank h,hhash]

theorem step_blank (he : entryOf wide body = some e) : step wide (last++body) post st = place
    (indentOf last) body (nextIsList (indentOf last) post) (popTo (indentOf last) st) e := by
  simp only [step,skipped_blank hblank h,strip_blank hblank h,indentOf_solid h,he,
    Bool.false_eq_true,if_false]

end

theorem step_pad (h : Solid body) (he : entryOf wide body = some e) :
    step wide (pad n++body) post st = place n body (nextIsList n post) (popTo n st) e := by
  rw [step_blank pad_space h he,indentOf_pad]

theorem partitionColon_append (h : ':' ∉ s) (t : Str) : partitionColon (s++ ':'::t) = (s,t) := by
  have hall : ∀ c ∈ s, (c != ':') = true := fun c hc => by
    simpa using fun heq : c = ':' => h (heq ▸ hc)
  rw [partitionColon,takeWhile_append_of_pos hall,dropWhile_append_of_pos hall]
  simp

theorem dash_append (h : dash s = false) (t : Str) : dash (s++ ':'::t) = false := by
  rcases s with _ | ⟨c,_ | ⟨d,s⟩⟩
  · rfl
  · simp [dash,isPrefixOf]
  · simpa [dash,isPrefixOf] using h

theorem plain_keyed (hfield : dash field = false) (hblank : ∀ c ∈ last, isSpace c = true) {t : Str}
    (ht : Solid (field++ ':'::t)) : Plain ((last++(field++ ':'::t))::post) := by
  refine plain_cons ?_ (skipped_blank hblank ht)
  rw [lstrip_blank hblank ht]
  exact dash_append hfield t

theorem unbroken_cons (hc : isBreak c = false) (hs : Unbroken s) : Unbroken (c::s) :=
  forall_mem_cons.mpr ⟨hc,hs⟩

theorem solid_item (h : IsIdent item) : Solid ('-':: ' '::item) := by
  refine ⟨⟨'-',rfl,by decide,by decide⟩,fun c hc => ?_,
    unbroken_cons rfl (unbroken_cons rfl h.unbroken)⟩
  obtain ⟨d,t,rfl,-⟩ := h.exists_cons
  exact h.last c (by simpa using hc)

theorem entryOf_item (h : IsIdent item) :
    entryOf wide ('-':: ' '::item) = some (.item (.str item)) := by
  have hcolon : ':' ∉ item := h.ne (by decide)
  simp [entryOf,dash,isPrefixOf,h.strip_eq,hcolon,parseScalar_ident h]

theorem head_append_colon (hspace : ∀ c ∈ s.head?, isSpace c = false) (hhash : s.head? ≠ some
    '#') : ∃ c ∈ (s++ ':'::t).head?, isSpace c = false ∧ c ≠ '#' := by
  cases s with
  | nil => exact ⟨':',rfl,by decide,by decide⟩
  | cons c s => exact ⟨c,rfl,hspace c rfl,fun h => hhash (by rw [h]; rfl)⟩

theorem IsKey.head (h : IsKey field) : ∀ c ∈ field.head?, isSpace c = false := by
  intro c hc
  obtain ⟨t,rfl⟩ := head?_eq_some_iff.mp hc
  by_contra hspace
  have hstrip : (strip (c::t)).length ≤ (lstrip (c::t)).length :=
    ( rdropWhile_prefix isSpace _).length_le
  have hle : (lstrip (c::t)).length ≤ t.length := by
    rw [lstrip,dropWhile_cons,if_pos (by simpa using hspace)]
    exact (dropWhile_sublist isSpace).length_le
  rw [h.stripped,length_cons] at hstrip
  omega

theorem IsIdent.isKey (h : IsIdent s) : IsKey s where
  stripped := h.strip_eq
  colon := h.ne (by decide)
  unbroken := h.unbroken
  hash hhash := h.ne (c:= '#') (by decide) (mem_of_mem_head? hhash)
  dash := by
    obtain ⟨c,t,rfl,hstart⟩ := h.exists_cons
    have hne : ('-' == c) = false := by
      rw [beq_eq_false_iff_ne]
      rintro rfl
      exact absurd hstart (by decide)
    simp [Yaml.dash,isPrefixOf,hne]

section

variable (h : IsKey field)
include h

theorem solid_open : Solid (field++[':']) := by
  refine ⟨head_append_colon h.head h.hash,fun c hc => ?_,
    unbroken_append h.unbroken (unbroken_cons rfl unbroken_nil)⟩
  rw [getLast?_concat] at hc
  cases hc
  decide

theorem entryOf_open : entryOf wide (field++[':']) = some (.opens field) := by
  have hdash := dash_append h.dash []
  have hpart := partitionColon_append h.colon []
  have hnil : strip [] = [] := rfl
  simp [entryOf,hdash,hpart,h.stripped,hnil]

section

variable (hs : s ≠ []) (hspace : ∀ c ∈ s, isSpace c = false)
include hs hspace

theorem solid_scalar : Solid (field++ ':':: ' '::s) := by
  have hunbroken : Unbroken s := fun c hc => isBreak_of_not_space (hspace c hc)
  refine ⟨head_append_colon h.head h.hash,fun c hc => ?_,
    unbroken_append h.unbroken (unbroken_cons rfl (unbroken_cons rfl hunbroken))⟩
  obtain ⟨d,t,rfl⟩ := exists_cons_of_ne_nil hs
  rw [getLast?_append,getLast?_cons_cons,getLast?_cons_cons,
    getLast?_eq_some_getLast (by simp)] at hc
  exact hspace c (mem_of_mem_getLast? hc)

theorem entryOf_scalar (hhash : '#' ∉ s) : entryOf wide (field++ ':':: ' '::s) = some (.scalar
    field (parseScalar wide s)) := by
  have hdash := dash_append h.dash (' '::s)
  have hpart := partitionColon_append h.colon (' '::s)
  have hstrip : strip (' '::s) = s := by
    rw [strip,show ' '::s = [' ']++s from rfl,lstrip_of_space (all_eq_true.mp rfl),
      lstrip_eq_self fun c hc => hspace c (mem_of_mem_head? hc)]
    exact rstrip_eq_self fun c hc => hspace c (mem_of_mem_getLast? hc)
  have hhead : s.head? ≠ some '#' := fun h => hhash (mem_of_mem_head? h)
  simp [entryOf,hdash,hpart,h.stripped,hstrip,hs,hhead]

end

end

theorem showScalar_space (v : Scalar) : ∀ c ∈ showScalar v, isSpace c = false := by
  rcases v with (_ | _) | z
  · have hletters : "false".toList.all identChar = true := rfl
    exact fun c hc => identChar_space (all_eq_true.mp hletters c hc)
  · have hletters : "true".toList.all identChar = true := rfl
    exact fun c hc => identChar_space (all_eq_true.mp hletters c hc)
  · exact fun c hc => showInt_space hc

theorem showScalar_hash (v : Scalar) : '#' ∉ showScalar v := by
  rcases v with (_ | _) | z
  · decide
  · decide
  · exact fun h => absurd (mem_showInt h) (by decide)

theorem showScalar_ne_nil (v : Scalar) : showScalar v ≠ [] := by
  rcases v with (_ | _) | z
  · decide
  · decide
  · exact showInt_ne_nil z

theorem IsIdent.ne_nil (h : IsIdent s) : s ≠ [] := by
  obtain ⟨c,t,rfl,-⟩ := h.exists_cons
  simp

theorem written_solid (hfield : IsKey field) (hv : v.Proper) :
    ∀ l ∈ written n field v, ∃ m body, Solid body ∧ l = pad m++body++['\n'] := by
  intro l hl
  rcases mem_cons.mp hl with rfl | hl
  · cases v with
    | list items => exact ⟨n,_,solid_open hfield,rfl⟩
    | map entries => exact ⟨n,_,solid_open hfield,rfl⟩
    | ident s => exact ⟨n,_,solid_scalar hfield hv.ne_nil hv.space,rfl⟩
  · cases v with
    | list items =>
      obtain ⟨item,hitem,rfl⟩ := mem_map.mp hl
      exact ⟨n+2,_,solid_item (hv item hitem),rfl⟩
    | map entries =>
      obtain ⟨e,he,rfl⟩ := mem_map.mp hl
      exact ⟨n+2,_,solid_scalar (hv.2 e he).isKey (showScalar_ne_nil _) (showScalar_space _),rfl⟩
    | ident s => cases hl

theorem chomp_pad (h : Solid body) : chomp (pad n++body++['\n']) = pad n++body :=
  chomp_feed (unbroken_pad h.unbroken)

end

section

variable {body last : Str} {n i : ℕ} {post : List Str} {st : State} {root : Str → Option Value} {os
  : List Open}

theorem popTo_deeper (h : i < n) (box : Box) :
    popTo n ⟨root,⟨i,key,box⟩::os⟩ = ⟨root,⟨i,key,box⟩::os⟩ := by
  rw [popTo,popWhile,if_neg (by simpa using h)]
  rfl

theorem run_items (h : i < n) (items : List Str) (hitems : ∀ item ∈ items, IsIdent item)
    (xs : List Value) :
    run wide ⟨root,⟨i,key,.list xs⟩::os⟩
        ((items.map fun item => pad n++('-':: ' '::item)++['\n']).map chomp++post) =
      run wide ⟨root,⟨i,key,.list (xs++items.map .str)⟩::os⟩ post := by
  induction items generalizing xs with
  | nil => simp
  | cons item items ih =>
    have hitem := hitems item mem_cons_self
    rw [map_cons,map_cons,cons_append,run,chomp_pad (solid_item hitem),
      step_pad (solid_item hitem) (entryOf_item hitem),popTo_deeper h]
    have hrest := ih (fun d hd => hitems d (mem_cons_of_mem item hd)) (xs++[.str item])
    simpa [place,State.inList,assign,Box.put,Except.bind] using hrest

theorem run_entries (h : i < n) (entries : List (Str × Scalar))
    (hentries : ∀ e ∈ entries, IsIdent e.1) (kvs : List (Str × Value)) :
    run wide ⟨root,⟨i,key,.map kvs⟩::os⟩
        ((entries.map fun e => pad n++(e.1++ ':':: ' '::showScalar e.2)++['\n']).map chomp++post) =
      run wide ⟨root,⟨i,key,.map (entries.foldl (fun kvs e => setKey e.1 e.2.value kvs) kvs)⟩::os⟩
        post := by
  induction entries generalizing kvs with
  | nil => simp
  | cons e entries ih =>
    have hkey := (hentries e mem_cons_self).isKey
    have hsolid := solid_scalar hkey (showScalar_ne_nil e.2) (showScalar_space e.2)
    have hentry : entryOf wide (e.1++ ':':: ' '::showScalar e.2) = some (.scalar e.1 e.2.value) := by
      rw [entryOf_scalar hkey (showScalar_ne_nil e.2) (showScalar_space e.2) (showScalar_hash e.2),
        parseScalar_showScalar]
    rw [map_cons,map_cons,cons_append,run,chomp_pad hsolid,step_pad hsolid hentry,
      popTo_deeper h]
    have hrest := ih (fun d hd => hentries d (mem_cons_of_mem e hd))
      (setKey e.1 e.2.value kvs)
    simpa [place,State.inList,assign,Box.put,Except.bind] using hrest

theorem nextIsList_stops (h : Stops n post) : nextIsList n post = false := by
  induction post with
  | nil => rfl
  | cons raw post ih =>
    rw [Stops] at h
    rw [nextIsList]
    split
    next hraw =>
      rw [if_pos hraw] at h
      exact ih h
    next hraw =>
      rw [if_neg hraw] at h
      rw [if_pos h]

theorem run_opened (lines : List Str) (box : Box) (hfield : IsKey field) (hpost : Stops n post)
    (hlines : ∀ root os, run wide ⟨root,⟨n,some field,if nextIsList n (lines++post) then .list []
        else .map []⟩::os⟩ (lines++post) = run wide ⟨root,⟨n,some field,box⟩::os⟩ post) :
    (run wide st (chomp (pad n++(field++[':'])++['\n'])::(lines++post))).map shut =
      if (popTo n st).inList then .error (.nonDict field)
      else (run wide (assign (popTo n st) (some field) box.value) post).map shut := by
  rw [run,chomp_pad (solid_open hfield),step_pad (solid_open hfield) (entryOf_open hfield),place]
  cases (popTo n st).inList with
  | true => rfl
  | false =>
    refine Eq.trans (congrArg (Except.map shut) (hlines _ _)) ?_
    exact run_close (o:=⟨n,some field,box⟩) hpost _ _

theorem run_written (hfield : IsKey field) (hv : v.Proper) (hpost : Stops n post) :
    (run wide st ((written n field v).map chomp++post)).map shut =
      if (popTo n st).inList then .error (.nonDict field)
      else (run wide (assign (popTo n st) (some field) v.readBack) post).map shut := by
  rw [written,map_cons,cons_append]
  cases v with
  | ident s =>
    have hsolid := solid_scalar hfield hv.ne_nil hv.space
    have hentry : entryOf wide (field++ ':':: ' '::s) = some (.scalar field (.str s)) := by
      rw [entryOf_scalar hfield hv.ne_nil hv.space (hv.ne (by decide)),parseScalar_ident hv]
    rw [run,headLine,chomp_pad hsolid,step_pad hsolid hentry,place]
    cases (popTo n st).inList with
    | true => rfl
    | false => rfl
  | list items =>
    cases items with
    | nil =>
      refine run_opened [] (.map []) hfield hpost fun root os => ?_
      rw [nil_append,nextIsList_stops hpost]
      rfl
    | cons item items =>
      have hitem := solid_item (hv item mem_cons_self)
      have hlist : nextIsList n ((itemLines (n+2) (.list (item::items))).map chomp++post) = true := by
        rw [itemLines,map_cons,map_cons,cons_append,nextIsList,chomp_pad hitem,
          if_neg (by simp [skipped_blank pad_space hitem]),indentOf_solid hitem,indentOf_pad,
          if_neg (by omega),lstrip_blank pad_space hitem]
        rfl
      refine run_opened _ (.list ((item::items).map .str)) hfield hpost fun root os => ?_
      rw [hlist]
      exact run_items (n:=n+2) (i:=n) (by omega) (item::items) hv []
  | map entries =>
    have hlist : nextIsList n ((itemLines (n+2) (.map entries)).map chomp++post) = false := by
      cases entries with
      | nil => exact nextIsList_stops hpost
      | cons e entries =>
        have hkey := (hv.2 e mem_cons_self).isKey
        have hsolid := solid_scalar hkey (showScalar_ne_nil e.2) (showScalar_space e.2)
        rw [itemLines,map_cons,map_cons,cons_append,chomp_pad hsolid]
        exact plain_keyed hkey.dash pad_space hsolid n
    refine run_opened _ (.map (entries.foldl (fun kvs e => setKey e.1 e.2.value kvs) [])) hfield
      hpost fun root os => ?_
    rw [hlist]
    exact run_entries (n:=n+2) (i:=n) (by omega) entries hv.2 []

end

end TinyDeviceOs.Yaml
