import Mathlib.Data.List.DropRight
import Mathlib.Data.Nat.Digits.Defs
import Mathlib.Tactic.IntervalCases

/-! Texts as lists of characters: whitespace, lines and decimal numbers as Python has them. -/
namespace TinyDeviceOs.PyText

open List

abbrev Str := List Char

/-- `str.isspace` of one character. -/
def isSpace (c : Char) : Bool :=
  c.toNat ∈ [9,10,11,12,13,28,29,30,31,32,133,160,5760,8192,8193,8194,8195,8196,8197,8198,8199,
    8200,8201,8202,8232,8233,8239,8287,12288]

/-- Where `str.splitlines` ends a line. -/
def isBreak (c : Char) : Bool := c.toNat ∈ [10,11,12,13,28,29,30,133,8232,8233]

def lstrip (s : Str) : Str := s.dropWhile isSpace

def rstrip (s : Str) : Str := s.rdropWhile isSpace

def strip (s : Str) : Str := rstrip (lstrip s)

/-- `str.splitlines(keepends=True)`. -/
def splitLines : Str → List Str
  | [] => []
  | c::s =>
    if isBreak c && !(c == '\r' && s.head? == some '\n') then [c]::splitLines s
    else
      match splitLines s with
      | [] => [[c]]
      | l::ls => (c::l)::ls

def chomp (l : Str) : Str := l.rdropWhile isBreak

/-- `str.partition` at a colon. -/
def partitionColon (s : Str) : Str × Str :=
  (s.takeWhile (· != ':'),(s.dropWhile (· != ':')).tail)

def lower (s : Str) : Str := s.map Char.toLower

def digitChar (d : ℕ) : Char := Char.ofNat (48+d)

def showNat (n : ℕ) : Str :=
  if n = 0 then ['0'] else (Nat.digits 10 n).reverse.map digitChar

/-- `str` of an integer. -/
def showInt : ℤ → Str
  | .ofNat n => showNat n
  | .negSucc n => '-'::showNat (n+1)

section

variable (wide : Char → Option ℕ)

/-- `wide` gives the digits outside ASCII. -/
def digitOf (c : Char) : Option ℕ :=
  if c.toNat < 128 then
    if 48 ≤ c.toNat ∧ c.toNat < 58 then some (c.toNat-48) else none
  else wide c

def hexOf (c : Char) : Option ℕ :=
  if 48 ≤ c.toNat ∧ c.toNat < 58 then some (c.toNat-48)
  else if 97 ≤ c.toNat ∧ c.toNat < 103 then some (c.toNat-87)
  else if 65 ≤ c.toNat ∧ c.toNat < 71 then some (c.toNat-55)
  else none

def readDigits (base : ℕ) (digit : Char → Option ℕ) (s : Str) : Option ℕ :=
  if s = [] then none
  else (s.mapM digit).map fun ds => ds.foldl (fun acc d => acc*base+d) 0

/-- `int` of what matches `-?\d+`. -/
def readInt (s : Str) : Option ℤ :=
  match s with
  | '-'::ds => (readDigits 10 (digitOf wide) ds).map fun n => -(n : ℤ)
  | ds => (readDigits 10 (digitOf wide) ds).map fun n => (n : ℤ)

/-- `int` in base 16 of what matches `0x[0-9a-fA-F]+`. -/
def readHex (s : Str) : Option ℤ :=
  match s with
  | '0':: 'x'::ds => (readDigits 16 hexOf ds).map fun n => (n : ℤ)
  | _ => none

end

variable {c : Char} {s t l : Str}

theorem isSpace_of_isBreak (h : isBreak c = true) : isSpace c = true := by
  simp only [isBreak,isSpace,decide_eq_true_eq,mem_cons,not_mem_nil,or_false] at h ⊢
  omega

theorem lstrip_append (h : ∃ c ∈ s, isSpace c = false) : lstrip (s++t) = lstrip s++t := by
  rw [lstrip,dropWhile_append,if_neg (by simpa using h)]
  rfl

theorem lstrip_of_space (h : ∀ c ∈ s, isSpace c = true) : lstrip (s++t) = lstrip t :=
  dropWhile_append_of_pos h

theorem rdropWhile_append_of_pos (h : ∀ c ∈ t, p c = true) : (s++t).rdropWhile p = s.rdropWhile
    p := by
  rw [rdropWhile,reverse_append,dropWhile_append_of_pos (by simpa using h)]
  rfl

theorem rstrip_eq_self (h : ∀ c ∈ s.getLast?, isSpace c = false) : rstrip s = s := by
  induction s using reverseRecOn with
  | nil => rfl
  | append_singleton s c ih =>
    have hc : isSpace c = false := h c (by simp)
    exact rdropWhile_concat_neg _ _ _ (by simp [hc])

theorem lstrip_eq_self (h : ∀ c ∈ s.head?, isSpace c = false) : lstrip s = s := by
  cases s with
  | nil => rfl
  | cons c s =>
    have hc : isSpace c = false := h c rfl
    simp [lstrip,hc]

theorem strip_eq_self (hhead : ∀ c ∈ s.head?, isSpace c = false)
    (hlast : ∀ c ∈ s.getLast?, isSpace c = false) : strip s = s := by
  rw [strip,lstrip_eq_self hhead,rstrip_eq_self hlast]

theorem strip_eq_nil : strip s = [] ↔ ∀ c ∈ s, isSpace c = true := by
  rw [strip,rstrip,rdropWhile_eq_nil_iff]
  refine ⟨fun h => ?_,fun h c hc => h c ((dropWhile_sublist isSpace).mem hc)⟩
  have hall : ∀ c ∈ s.takeWhile isSpace++s.dropWhile isSpace, isSpace c = true :=
    forall_mem_append.mpr ⟨fun _ hc => mem_takeWhile_imp hc,h⟩
  rwa [takeWhile_append_dropWhile] at hall

theorem strip_ne_nil : strip s ≠ [] ↔ ∃ c ∈ s, isSpace c = false := by simp [strip_eq_nil]

theorem strip_length_le : (strip s).length ≤ s.length :=
  ( rdropWhile_prefix isSpace _).length_le.trans (dropWhile_sublist isSpace).length_le

/-- The characters before the line end. -/
def Unbroken (s : Str) : Prop := ∀ c ∈ s, isBreak c = false

theorem unbroken_nil : Unbroken [] := fun _ h => by cases h

def Ended (l : Str) : Prop :=
  ∃ s, Unbroken s ∧ (l = s++['\r','\n'] ∨ ∃ b, isBreak b = true ∧ l = s++[b])

/-- No return is followed by a line feed, which would belong to it. -/
def Parted (l : Str) (rest : Str) : Prop := l.getLast? = some '\r' → rest.head? ≠ some '\n'

/-- Only the last line may lack its end. -/
def IsLines : List Str → Prop
  | [] => True
  | l::ls => Ended l ∧ Parted l ls.flatten ∧ IsLines ls ∨ ls = [] ∧ l ≠ [] ∧ Unbroken l

theorem splitLines_flatten (s : Str) : (splitLines s).flatten = s := by
  induction s with
  | nil => rfl
  | cons c s ih =>
    rw [splitLines]
    split
    · rw [flatten_cons,ih]
      rfl
    · split
      next hnil =>
        rw [hnil] at ih
        rw [←ih]
        rfl
      next l ls hcons =>
        rw [hcons,flatten_cons] at ih
        rw [flatten_cons,cons_append,ih]

theorem splitLines_unbroken (h : Unbroken s) (hs : s ≠ []) : splitLines s = [s] := by
  induction s with
  | nil => exact absurd rfl hs
  | cons c s ih =>
    have hc : isBreak c = false := h c mem_cons_self
    rw [splitLines,hc]
    cases s with
    | nil => rfl
    | cons d s => rw [ih (fun e he => h e (mem_cons_of_mem c he)) (by simp)]; rfl

theorem splitLines_cons_unbroken (hs : Unbroken s) (ht : splitLines t = l::ls) :
    splitLines (s++t) = (s++l)::ls := by
  induction s with
  | nil => exact ht
  | cons c s ih =>
    have hc : isBreak c = false := hs c mem_cons_self
    rw [cons_append,splitLines,hc,ih fun d hd => hs d (mem_cons_of_mem c hd)]
    rfl

theorem splitLines_ended (hl : Ended l) (hparted : Parted l t) :
    splitLines (l++t) = l::splitLines t := by
  obtain ⟨s,hs,rfl | ⟨b,hb,rfl⟩⟩ := hl
  · rw [append_assoc]
    refine splitLines_cons_unbroken hs ?_
    rfl
  · rw [append_assoc]
    refine splitLines_cons_unbroken hs ?_
    have hfeed : ¬(b = '\r' ∧ t.head? = some '\n') := by
      rintro ⟨rfl,hhead⟩
      exact hparted (by simp) hhead
    rw [singleton_append,splitLines,if_pos]
    simpa [hb,←imp_iff_not_or] using hfeed

theorem splitLines_of_isLines (h : IsLines ls) : splitLines ls.flatten = ls := by
  induction ls with
  | nil => rfl
  | cons l ls ih =>
    rcases h with ⟨hl,hparted,hls⟩ | ⟨rfl,hne,hl⟩
    · rw [flatten_cons,splitLines_ended hl hparted,ih hls]
    · simpa using splitLines_unbroken hl hne

theorem isLines_splitLines (s : Str) : IsLines (splitLines s) := by
  induction s with
  | nil => trivial
  | cons c s ih =>
    have hflat := splitLines_flatten s
    rw [splitLines]
    split
    next hbreak =>
      simp only [Bool.and_eq_true,Bool.not_eq_true',Bool.and_eq_false_iff] at hbreak
      refine .inl ⟨⟨[],unbroken_nil,.inr ⟨c,hbreak.1,rfl⟩⟩,?_,ih⟩
      rw [hflat]
      intro hlast
      have hc : c = '\r' := by simpa using hlast
      rcases hbreak.2 with hne | hne
      · simp [hc] at hne
      · simpa using hne
    next hbreak =>
      split
      next hnil =>
        have hs : s = [] := by
          rw [hnil] at hflat
          exact hflat.symm
        refine .inr ⟨rfl,by simp,fun d hd => ?_⟩
        have hd : d = c := by simpa using hd
        subst hd
        simpa [hs] using hbreak
      next l ls hcons =>
        rw [hcons] at ih hflat
        simp only [Bool.and_eq_true,Bool.not_eq_true',not_and,Bool.not_eq_false] at hbreak
        cases hc : isBreak c with
        | false =>
          rcases ih with ⟨⟨t,ht,hend⟩,hparted,hls⟩ | ⟨rfl,hne,hl⟩
          · refine .inl ⟨⟨c::t,forall_mem_cons.mpr ⟨hc,ht⟩,?_⟩,?_,hls⟩
            · rcases hend with rfl | ⟨b,hb,rfl⟩
              · exact .inl rfl
              · exact .inr ⟨b,hb,rfl⟩
            · intro hlast
              refine hparted ?_
              rcases hend with rfl | ⟨b,hb,rfl⟩
              · rw [←cons_append,getLast?_append] at hlast
                simp at hlast
              · rw [←cons_append,getLast?_concat] at hlast
                rw [getLast?_concat,hlast]
          · exact .inr ⟨rfl,by simp,forall_mem_cons.mpr ⟨hc,hl⟩⟩
        | true =>
          -- a return before a line feed: the line is that line feed alone
          obtain ⟨hcr,hhead⟩ : c = '\r' ∧ s.head? = some '\n' := by simpa [hc] using hbreak
          obtain ⟨s',rfl⟩ : ∃ s', s = '\n'::s' := by
            cases s with
            | nil => cases hhead
            | cons d s' =>
              have hd : d = '\n' := by simpa using hhead
              exact ⟨s',by rw [hd]⟩
          have hfirst : splitLines ('\n'::s') = ['\n']::splitLines s' := rfl
          obtain ⟨rfl,rfl⟩ := cons.inj (hcons.symm.trans hfirst)
          rcases ih with ⟨-,-,hls⟩ | ⟨-,-,hl⟩
          · refine .inl ⟨⟨[],unbroken_nil,.inl (by rw [hcr]; rfl)⟩,?_,hls⟩
            intro hlast
            simp at hlast
          · exact absurd (hl '\n' (by simp)) (by decide)

theorem IsLines.tail (h : IsLines (ls++ms)) : IsLines ms := by
  induction ls with
  | nil => exact h
  | cons l ls ih =>
    rcases h with ⟨-,-,h⟩ | ⟨hnil,-⟩
    · exact ih h
    · rw [(append_eq_nil_iff.mp hnil).2]
      trivial

theorem IsLines.ended (h : IsLines (ls++ms)) (hms : ms ≠ []) : ∀ l ∈ ls, Ended l := by
  induction ls with
  | nil => exact fun _ h => by cases h
  | cons l ls ih =>
    rcases h with ⟨hl,-,h⟩ | ⟨hnil,-⟩
    · exact forall_mem_cons.mpr ⟨hl,ih h⟩
    · exact absurd (append_eq_nil_iff.mp hnil).2 hms

theorem ended_or_open (h : IsLines ls) : (∀ l ∈ ls, Ended l) ∨
    ∃ ms l, ls = ms++[l] ∧ (∀ d ∈ ms, Ended d) ∧ l ≠ [] ∧ Unbroken l := by
  induction ls with
  | nil => exact .inl fun _ h => by cases h
  | cons l ls ih =>
    rcases h with ⟨hl,-,h⟩ | ⟨rfl,hne,hl⟩
    · rcases ih h with hall | ⟨ms,k,rfl,hms,hk⟩
      · exact .inl (forall_mem_cons.mpr ⟨hl,hall⟩)
      · exact .inr ⟨l::ms,k,rfl,forall_mem_cons.mpr ⟨hl,hms⟩,hk⟩
    · exact .inr ⟨[],l,rfl,fun _ h => (by cases h),hne,hl⟩

/-- A text that is empty or ends with a line break. -/
def Closed (s : Str) : Prop := ∀ c ∈ s.getLast?, isBreak c = true

theorem Closed.ended (h : Closed s) : ∀ l ∈ splitLines s, Ended l := by
  rcases ended_or_open (isLines_splitLines s) with hall | ⟨ms,l,hlines,-,hne,hl⟩
  · exact hall
  · obtain ⟨c,hc⟩ : ∃ c, l.getLast? = some c := ⟨_,getLast?_eq_some_getLast hne⟩
    have hlast : s.getLast? = some c := by
      rw [←splitLines_flatten s,hlines,flatten_append,flatten_singleton,
        getLast?_append,hc]
      rfl
    have hbreak := h c hlast
    rw [hl c (mem_of_mem_getLast? hc)] at hbreak
    cases hbreak

theorem Ended.not_unbroken (h : Ended l) : ¬Unbroken l := by
  intro hl
  obtain ⟨u,-,rfl | ⟨b,hb,rfl⟩⟩ := h
  · exact absurd (hl '\n' (by simp)) (by decide)
  · rw [hl b (by simp)] at hb
    cases hb

theorem closed_of_ended (h : ∀ l ∈ splitLines s, Ended l) : Closed s := by
  intro c hc
  rcases eq_nil_or_concat (splitLines s) with hnil | ⟨ms,l,hlines⟩
  · rw [←splitLines_flatten s,hnil] at hc
    cases hc
  · rw [concat_eq_append] at hlines
    have hl : Ended l := h l (by rw [hlines]; simp)
    rw [←splitLines_flatten s,hlines,flatten_append,flatten_singleton,
      getLast?_append] at hc
    obtain ⟨u,-,rfl | ⟨b,hb,rfl⟩⟩ := hl
    · have hc : '\n' = c := by simpa using hc
      subst hc
      decide
    · have hc : b = c := by simpa using hc
      exact hc ▸ hb

/-- If they do not start with the line feed of a return. -/
theorem IsLines.replace (h : IsLines (ls++ms)) (hended : ∀ l ∈ ls, Ended l) (hns : IsLines ns)
    (hhead : ns.flatten.head? ≠ some '\n') : IsLines (ls++ns) := by
  induction ls with
  | nil => exact hns
  | cons l ls ih =>
    have hl := hended l mem_cons_self
    have hrest : ∀ d ∈ ls, Ended d := fun d hd => hended d (mem_cons_of_mem l hd)
    rcases h with ⟨-,hparted,h⟩ | ⟨hnil,-,hl'⟩
    · refine .inl ⟨hl,fun hlast => ?_,ih h hrest⟩
      cases ls with
      | nil => exact hhead
      | cons d ls =>
        have hd : d ≠ [] := by
          obtain ⟨s,-,rfl | ⟨b,-,rfl⟩⟩ := hrest d mem_cons_self <;> simp
        have hfirst := hparted hlast
        cases d with
        | nil => exact absurd rfl hd
        | cons e d => simpa using hfirst
    · exact absurd hl' hl.not_unbroken

theorem isLines_feed (h : ∀ l ∈ ls, ∃ s, Unbroken s ∧ l = s++['\n']) (hms : IsLines ms) :
    IsLines (ls++ms) := by
  induction ls with
  | nil => exact hms
  | cons l ls ih =>
    obtain ⟨s,hs,rfl⟩ := h l mem_cons_self
    refine .inl ⟨⟨s,hs,.inr ⟨'\n',by decide,rfl⟩⟩,fun hlast => by simp at hlast,?_⟩
    exact ih fun d hd => h d (mem_cons_of_mem _ hd)

theorem head_ne_feed (h : Unbroken s) (hs : s ≠ []) : (s++t).head? ≠ some '\n' := by
  cases s with
  | nil => exact absurd rfl hs
  | cons c s =>
    intro hhead
    have hc : c = '\n' := by simpa using hhead
    have hbreak := h c mem_cons_self
    rw [hc] at hbreak
    cases hbreak

theorem exists_breaks (l : Str) : ∃ t, l = chomp l++t ∧ ∀ c ∈ t, isBreak c = true :=
  ⟨l.rtakeWhile isBreak,rdropWhile_append_rtakeWhile.symm,fun _ => mem_rtakeWhile_imp⟩

theorem lstrip_eq_nil : lstrip s = [] ↔ ∀ c ∈ s, isSpace c = true :=
  dropWhile_eq_nil_iff

theorem lstrip_chomp (h : lstrip l ≠ []) : ∃ t, lstrip l = lstrip (chomp l)++t ∧
    lstrip (chomp l) ≠ [] ∧ ∀ c ∈ t, isBreak c = true := by
  obtain ⟨t,hl,ht⟩ := exists_breaks l
  have hspace : ∃ c ∈ chomp l, isSpace c = false := by
    by_contra hall
    push Not at hall
    refine h (lstrip_eq_nil.mpr fun c hc => ?_)
    rw [hl] at hc
    rcases mem_append.mp hc with hc | hc
    · simpa using hall c hc
    · exact isSpace_of_isBreak (ht c hc)
  refine ⟨t,?_,fun hnil => ?_,ht⟩
  · rw [←lstrip_append hspace,←hl]
  · obtain ⟨c,hc,hne⟩ := hspace
    rw [lstrip_eq_nil.mp hnil c hc] at hne
    cases hne

section

variable (h : Unbroken s)
include h

theorem chomp_unbroken : chomp s = s :=
  rdropWhile_eq_self_iff.mpr fun hs => by simp [h _ (getLast_mem hs)]

theorem chomp_append (ht : ∀ c ∈ t, isBreak c = true) : chomp (s++t) = s :=
  (rdropWhile_append_of_pos ht).trans (chomp_unbroken h)

theorem chomp_feed : chomp (s++['\n']) = s :=
  chomp_append h (all_eq_true.mp rfl)

theorem ended_feed : Ended (s++['\n']) := ⟨s,h,.inr ⟨'\n',by decide,rfl⟩⟩

end

theorem isBreak_crlf : ∀ c ∈ ['\r','\n'], isBreak c = true := all_eq_true.mp rfl

/-- At most an empty line comes in between. -/
theorem chomp_splitLines_feed (s t : Str) : ∃ gap : List Str, (gap = [] ∨ gap = [[]]) ∧
    (splitLines (s++ '\n'::t)).map chomp =
      (splitLines s).map chomp++gap++(splitLines t).map chomp := by
  have hlines := isLines_splitLines s
  have hflat := splitLines_flatten s
  generalize splitLines s = ls at hlines hflat
  subst hflat
  induction ls with
  | nil => exact ⟨[[]],.inr rfl,rfl⟩
  | cons l ls ih =>
    rcases hlines with ⟨hl,hparted,hls⟩ | ⟨rfl,hne,hl⟩
    · obtain ⟨gap,hgap,heq⟩ := ih hls
      by_cases hcr : l.getLast? = some '\r' ∧ ls = []
      · obtain ⟨hlast,rfl⟩ := hcr
        obtain ⟨u,hu,rfl | ⟨b,hb,rfl⟩⟩ := hl
        · simp at hlast
        · have hb : b = '\r' := by simpa using hlast
          subst hb
          refine ⟨[],.inl rfl,?_⟩
          have hends : Ended (u++['\r','\n']) := ⟨u,hu,.inl rfl⟩
          have hsplit := splitLines_ended (t:=t) hends fun h => by simp at h
          have hchomp : chomp (u++['\r','\n']) = chomp (u++['\r']) := by
            rw [chomp_append hu isBreak_crlf,chomp_append hu (all_eq_true.mp rfl)]
          simpa [hchomp] using congrArg (map chomp) hsplit
      · refine ⟨gap,hgap,?_⟩
        have hparted' : Parted l (ls.flatten++ '\n'::t) := by
          intro hlast
          have hne : ls ≠ [] := fun h => hcr ⟨hlast,h⟩
          have hfirst := hparted hlast
          cases hf : ls.flatten with
          | nil =>
            have hnil := congrArg splitLines hf
            rw [splitLines_of_isLines hls] at hnil
            exact absurd hnil hne
          | cons d u => simpa [hf] using hfirst
        rw [flatten_cons,append_assoc,splitLines_ended hl hparted',map_cons,heq]
        rfl
    · refine ⟨[],.inl rfl,?_⟩
      have hsplit := splitLines_ended (t:=t) (ended_feed hl) fun h => by simp at h
      simpa [chomp_feed hl,chomp_unbroken hl] using congrArg (map chomp) hsplit

section

theorem digitChar_toNat (h : d < 10) : (digitChar d).toNat = 48+d := by
  interval_cases d <;> rfl

theorem digitOf_digitChar (h : d < 10) : digitOf wide (digitChar d) = some d := by
  rw [digitOf,digitChar_toNat h,if_pos (by omega),if_pos (by omega)]
  congr 1
  omega

theorem readDigits_showNat : readDigits 10 (digitOf wide) (showNat n) = some n := by
  rcases eq_zero_or_pos n with rfl | hn
  · rfl
  · have hne : (Nat.digits 10 n).reverse.map digitChar ≠ [] := by
      simpa using Nat.digits_ne_nil_iff_ne_zero.mpr hn.ne'
    have hmap : ∀ ds : List ℕ, (∀ d ∈ ds, d < 10) →
        (ds.map digitChar).mapM (digitOf wide) = some ds := by
      intro ds
      induction ds with
      | nil => exact fun _ => rfl
      | cons d ds ih =>
        intro h
        rw [map_cons,mapM_cons,digitOf_digitChar (h d mem_cons_self),
          ih fun e he => h e (mem_cons_of_mem d he)]
        rfl
    have hdigits : ∀ d ∈ (Nat.digits 10 n).reverse, d < 10 := fun d hd =>
      Nat.digits_lt_base (by decide) (mem_reverse.mp hd)
    have hvalue : (Nat.digits 10 n).reverse.foldl (fun acc d => acc*10+d) 0 = n := by
      rw [foldl_reverse]
      calc (Nat.digits 10 n).foldr (fun d acc => acc*10+d) 0
          = Nat.ofDigits 10 (Nat.digits 10 n) := by
            rw [Nat.ofDigits_eq_foldr]
            congr 1
            funext d acc
            simp [add_comm,mul_comm]
        _ = n := Nat.ofDigits_digits 10 n
    rw [showNat,if_neg hn.ne',readDigits,if_neg hne,hmap _ hdigits,Option.map_some,hvalue]

theorem mem_showNat (h : c ∈ showNat n) : 48 ≤ c.toNat ∧ c.toNat < 58 := by
  rw [showNat] at h
  split at h
  · rw [show c = '0' by simpa using h]
    decide
  · obtain ⟨d,hd,rfl⟩ := mem_map.mp h
    have hlt := Nat.digits_lt_base (by decide) (mem_reverse.mp hd)
    rw [digitChar_toNat hlt]
    omega

theorem showNat_ne_nil : showNat n ≠ [] := by
  rw [showNat]
  split
  · simp
  next hn => simpa using Nat.digits_ne_nil_iff_ne_zero.mpr hn

theorem readInt_showInt : readInt wide (showInt z) = some z := by
  cases z with
  | ofNat n =>
    cases hs : showNat n with
    | nil => exact absurd hs showNat_ne_nil
    | cons c s =>
      have hc : c ≠ '-' := by
        rintro rfl
        exact absurd (mem_showNat (c:= '-') (n:=n) (by rw [hs]; exact mem_cons_self))
          (by decide)
      have hread : readDigits 10 (digitOf wide) (showNat n) = some n := readDigits_showNat
      rw [showInt,hs,readInt]
      · rw [hs] at hread
        rw [hread]
        rfl
      · rintro ds hds
        exact hc (cons.inj hds).1
  | negSucc n =>
    rw [showInt,readInt,readDigits_showNat]
    rfl

end

end TinyDeviceOs.PyText
