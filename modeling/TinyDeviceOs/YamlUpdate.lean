import TinyDeviceOs.YamlReads

/-! What updating one field of `device_config.yaml` does to the others: the texts for which every
value is read back and nothing else changes. -/
namespace TinyDeviceOs.Yaml

open PyText List Function

variable (wide : Char → Option ℕ)

def isComment (line : Str) : Bool := (lstrip line).head? == some '#'

def comments (lines : List Str) : List Str := (lines.map chomp).filter isComment

/-- The deeper lines, up to the last that says something. -/
def extent (line : Str) (after : List Str) : ℕ :=
  match entryOf wide (strip (chomp line)) with
  | some (.opens _) =>
    (((after.map chomp).takeWhile fun l => skipped l || indentOf (chomp line) < indentOf l).rdropWhile
      skipped).length
  | _ => 0

def outside (text field : Str) : List Str :=
  match (splitLines text).dropWhile (!starts field ·) with
  | [] => comments (splitLines text)
  | line::after =>
    comments ((splitLines text).takeWhile (!starts field ·))++
      comments (after.drop (extent wide line after))

/-- Read as the old text with the value in the field, with the comments outside of it. -/
def Updated (text : Str) (r : Str → Option Value) (field : Str) (v : FieldValue) : Prop :=
  parseSimpleYaml wide (updateYamlField text field v) =
      .ok (update r field (some v.value)) ∧
    (outside wide text field).Sublist (comments (splitLines (updateYamlField text field v)))

inductive Kind
  | list
  | map
  | ident
  deriving DecidableEq

def FieldValue.kind : FieldValue → Kind
  | .list _ => .list
  | .map _ => .map
  | .ident _ => .ident

/-- A key with this indent after the lines belongs to the root. -/
def Rootward (lines : List Str) (indent : ℕ) : Prop :=
  ∃ s, run wide empty (lines.map chomp) = .ok s ∧ ∀ o ∈ s.stack, indent ≤ o.indent

/-- The lines that are replaced are those of one field of the root. -/
structure FitsAt (pre : List Str) (line : Str) (after : List Str) (r : Str → Option Value)
    (field : Str) : Prop where
  comments : comments ((after.takeWhile (!stops (leading line) ·)).drop (extent wide line after)) = []
  root : Rootward wide pre (leading line)
  rest : ∃ r1 r2, parseLines wide pre = .ok r1 ∧
    parseLines wide (after.dropWhile (!stops (leading line) ·)) = .ok r2 ∧ r2 field = none ∧
    ∀ k, k ≠ field → r k = (r2 k).or (r1 k)

/-- A field found is replaced as a whole, and a name that is appended starts a line. -/
def Fits (text : Str) (r : Str → Option Value) (field : Str) (kind : Kind) : Prop :=
  match (splitLines text).dropWhile (!starts field ·) with
  | line::after => FitsAt wide ((splitLines text).takeWhile (!starts field ·)) line after r field
  | [] => kind = .ident → Closed text ∨
      ∃ lines last, splitLines text = lines++[last] ∧ strip last = [] ∧
        Rootward wide lines (indentOf last)

variable {wide} {text field line body z last : Str} {r : Str → Option Value} {v : FieldValue}
  {pre after post lines : List Str} {kind : Kind} {s : State} {n : ℕ}

def fresh (m : ℕ) : Str := replicate (m+6) 'a'

theorem fresh_length (m : ℕ) : (fresh m).length = m+6 := length_replicate

theorem mem_fresh (h : c ∈ fresh m) : c = 'a' := eq_of_mem_replicate h

theorem fresh_isIdent (m : ℕ) : IsIdent (fresh m) := by
  refine ⟨⟨'a',?_,by decide⟩,fun c hc => ?_,fun hkey => ?_⟩
  · rw [fresh,replicate_succ]
    rfl
  · rw [mem_fresh hc]
    decide
  · have hlen : ∀ w ∈ keywords, w.length < 6 := by decide
    have hlow := hlen _ hkey
    rw [lower,length_map,fresh_length] at hlow
    omega

def freshValue (m : ℕ) : Kind → FieldValue
  | .list => .list [fresh m]
  | .map => .map [(fresh m,.bool true)]
  | .ident => .ident (fresh m)

theorem freshValue_kind : (freshValue m kind).kind = kind := by
  cases kind <;> rfl

theorem freshValue_proper (m : ℕ) (kind : Kind) : (freshValue m kind).Proper := by
  have h := fresh_isIdent m
  cases kind with
  | ident => exact h
  | _ => simpa [freshValue,FieldValue.Proper] using h

theorem freshValue_ne : freshValue m kind ≠ .list [] := by
  cases kind <;> simp [freshValue]

theorem freshValue_not_far (kind : Kind) : ¬Far (fresh m) (freshValue m kind).value := by
  cases kind with
  | list => exact fun h => h (.str (fresh m)) mem_cons_self rfl
  | map => exact fun h => h (fresh m,.bool true) mem_cons_self rfl
  | ident => exact fun h => h rfl

theorem readBack_eq (h : v ≠ .list []) : v.readBack = v.value := by
  cases v with
  | list items =>
    cases items with
    | nil => exact absurd rfl h
    | cons item items => rfl
  | map entries => rfl
  | ident s => rfl

theorem comments_append (ls ms : List Str) : comments (ls++ms) = comments ls++comments ms := by
  rw [comments,map_append,filter_append]
  rfl

theorem isComment_blank (hblank : ∀ c ∈ last, isSpace c = true) (h : Solid body) :
    isComment (last++body) = false := by
  obtain ⟨c,hc,-,hhash⟩ := h.head
  obtain ⟨t,rfl⟩ := head?_eq_some_iff.mp hc
  rw [isComment,lstrip_blank hblank h]
  exact beq_eq_false_iff_ne.mpr fun heq => hhash (Option.some.inj heq)

theorem comments_written (hfield : IsKey field) (hv : v.Proper) :
    comments (written n field v) = [] := by
  rw [comments,filter_eq_nil_iff]
  intro l hl
  obtain ⟨d,hd,rfl⟩ := mem_map.mp hl
  obtain ⟨m,body,hbody,rfl⟩ := written_solid hfield hv d hd
  rw [chomp_pad hbody,isComment_blank pad_space hbody]
  simp

theorem comments_drop_sublist : (comments (ls.drop k)).Sublist (comments ls) :=
  ((drop_sublist k ls).map chomp).filter isComment

theorem comments_kept_iff (k : ℕ) (block post : List Str) : (P++comments ((block++post).drop
    k)).Sublist (P++comments post) ↔ comments (block.drop k) = [] := by
  rw [append_sublist_append_left,drop_append,comments_append]
  constructor
  · intro h
    rcases lt_or_ge block.length k with hk | hk
    · rw [drop_eq_nil_of_le hk.le]
      rfl
    · have hlen := h.length_le
      rw [Nat.sub_eq_zero_of_le hk,drop_zero,length_append] at hlen
      exact eq_nil_of_length_eq_zero (by omega)
  · intro h
    rw [h]
    exact comments_drop_sublist

theorem skipped_of_lstrip (h : lstrip line ≠ []) (hhash : (lstrip line).head? ≠ some '#') :
    skipped line = false := by
  have hstrip : strip line ≠ [] := fun hnil => h (lstrip_eq_nil.mpr (strip_eq_nil.mp hnil))
  simp [skipped,hstrip,hhash]

section

variable (hfield : IsKey field)
include hfield

theorem plain_of_starts (h : starts field line = true) : Plain (chomp line::lines) := by
  obtain ⟨rest,hrest⟩ := isPrefixOf_iff_prefix.mp h
  have hne : lstrip line ≠ [] := by
    rw [←hrest]
    simp
  obtain ⟨t,ht,-,hbreak⟩ := lstrip_chomp hne
  have hkey : ∃ u, lstrip (chomp line) = field++ ':'::u := by
    rw [←hrest] at ht
    rcases append_eq_append_iff.mp ht with ⟨u,hu,-⟩ | ⟨u,hu,hut⟩
    · exact ⟨u,by rw [hu,append_assoc]; rfl⟩
    · -- nothing of the key lies in the end of the line
      have hnil : u = [] := by
        refine eq_nil_iff_forall_not_mem.mpr fun c hc => ?_
        have hb := hbreak c (by rw [hut]; exact mem_append_left _ hc)
        have hmem : c ∈ field++[':'] := by
          rw [hu]
          exact mem_append_right _ hc
        rw [(solid_open hfield).unbroken c hmem] at hb
        cases hb
      rw [hnil,append_nil] at hu
      exact ⟨[],hu.symm⟩
  obtain ⟨u,hu⟩ := hkey
  obtain ⟨c,hc,-,hhash⟩ := head_append_colon hfield.head hfield.hash
  have hc : (field++ ':'::u).head? = some c := hc
  refine plain_cons ?_ (skipped_of_lstrip ?_ ?_)
  · rw [hu]
    exact dash_append hfield.dash u
  · rw [hu]
    simp
  · rw [hu,hc]
    simpa using hhash

section

variable (hv : v.Proper)
include hv

theorem plain_written : Plain ((written n field v).map chomp++lines) := by
  have hline : ∀ t rest, Solid (field++ ':'::t) →
      Plain (chomp (pad n++(field++ ':'::t)++['\n'])::rest) := by
    intro t rest ht
    rw [chomp_pad ht]
    exact plain_keyed hfield.dash pad_space ht
  cases v with
  | list items => exact hline [] _ (solid_open hfield)
  | map entries => exact hline [] _ (solid_open hfield)
  | ident s => exact hline (' '::s) _ (solid_scalar hfield hv.ne_nil hv.space)

theorem plain_written_last : Plain ((written n field v).map chomp) := by
  rw [←append_nil ((written n field v).map chomp)]
  exact plain_written hfield hv

theorem isLines_written (hpost : IsLines post) : IsLines (written n field v++post) := by
  refine isLines_feed (fun l hl => ?_) hpost
  obtain ⟨m,body,hbody,rfl⟩ := written_solid hfield hv l hl
  exact ⟨_,unbroken_pad hbody.unbroken,rfl⟩

theorem head_written : (written n field v++post).flatten.head? ≠ some '\n' := by
  obtain ⟨m,body,hbody,hl⟩ := written_solid (n:=n) hfield hv _ mem_cons_self
  have hne : pad m++body ≠ [] := by
    obtain ⟨c,hc,-⟩ := hbody.head
    intro hnil
    rw [(append_eq_nil_iff.mp hnil).2] at hc
    cases hc
  rw [written,cons_append,flatten_cons,hl,append_assoc]
  exact head_ne_feed (unbroken_pad hbody.unbroken) hne

end

end

theorem indentOf_chomp_le : indentOf (chomp line) ≤ leading line := by
  have hspace : ∀ l : Str, indentOf l ≤ leading l := by
    intro l
    induction l with
    | nil => exact Nat.le_refl 0
    | cons c l ih =>
      rw [indentOf,leading,takeWhile_cons,takeWhile_cons]
      by_cases hc : c = ' '
      · subst hc
        exact Nat.succ_le_succ ih
      · rw [if_neg (by simpa using hc)]
        exact Nat.zero_le _
  obtain ⟨t,ht,-⟩ := exists_breaks line
  calc indentOf (chomp line) ≤ leading (chomp line) := hspace _
    _ ≤ leading line := by
      refine List.IsPrefix.length_le ?_
      conv_rhs => rw [ht]
      rw [takeWhile_append]
      split
      next hall => exact takeWhile_prefix _ |>.trans (prefix_append _ _)
      · exact prefix_rfl

theorem stops_post (after : List Str) (n : ℕ) :
    Stops n ((after.dropWhile (!stops n ·)).map chomp) := by
  cases hpost : after.dropWhile (!stops n ·) with
  | nil => trivial
  | cons line rest =>
    have hstop : stops n line = true := by
      have hhead := head?_dropWhile_not (!stops n ·) after
      rw [hpost] at hhead
      simpa using hhead
    simp only [stops,Bool.and_eq_true,bne_iff_ne,ne_eq,decide_eq_true_eq] at hstop
    obtain ⟨⟨hne,hhash⟩,hlead⟩ := hstop
    obtain ⟨t,ht,hchomp,-⟩ := lstrip_chomp hne
    have hskipped : skipped (chomp line) = false := by
      refine skipped_of_lstrip hchomp fun hhead => hhash ?_
      rw [ht,head?_append,hhead]
      rfl
    rw [map_cons,Stops,hskipped,if_neg (by simp)]
    exact indentOf_chomp_le.trans hlead

theorem farLine_lines (h : ∀ l ∈ lines, l ∈ splitLines text) (hz : text.length < z.length) :
    ∀ raw ∈ lines.map chomp, FarLine wide z raw := by
  intro raw hraw
  obtain ⟨l,hl,rfl⟩ := mem_map.mp hraw
  have hchomp : (chomp l).length ≤ l.length := ( rdropWhile_prefix isBreak l).length_le
  have htext := (sublist_flatten_of_mem (h l hl)).length_le
  rw [splitLines_flatten] at htext
  exact farLine_of_short (by omega)

theorem popWhile_stack_nil (h : (popWhile p root into os).stack = []) : ∀ o ∈ os, p o.indent =
    true := by
  induction os generalizing into with
  | nil => exact forall_mem_nil _
  | cons o os ih =>
    rw [popWhile] at h
    split at h
    next hp => exact forall_mem_cons.mpr ⟨hp,ih h⟩
    · cases h

section

variable (hfield : IsKey field) (hv : v.Proper)
include hfield hv

theorem run_written_root (hne : v ≠ .list []) (hroot : ∀ o ∈ s.stack, n ≤ o.indent) (hpost :
    Stops n post) : (run wide s ((written n field v).map chomp++post)).map shut = ((run wide
    empty post).map shut).map fun r => onTop r (update (shut s) field (some v.value)) := by
  rw [run_written hfield hv hpost,popTo_root hroot,readBack_eq hne]
  exact run_root _

theorem root_of_written (hpost : Stops n post) (hs : FarState z s) (hlines : ∀ raw ∈ post,
    FarLine wide z raw) (hz : field ≠ z) (hrun : (run wide s ((written n field v).map
    chomp++post)).map shut = .ok r) (hr : r field = some v.value) (hfar : ¬Far z v.value) : ∀ o
    ∈ s.stack, n ≤ o.indent := by
  rw [run_written hfield hv hpost] at hrun
  split at hrun
  · cases hrun
  by_cases hstack : (popTo n s).stack = []
  · intro o ho
    simpa using popWhile_stack_nil hstack o ho
  · have hwrite := (hs.popTo n).assign_nested hstack hz (v:=v.readBack)
    obtain ⟨t,hrest,rfl⟩ := exists_shut hrun
    exact absurd ((hwrite.run hlines hrest).shut hr) hfar

theorem run_written_last (hne : v ≠ .list []) (hroot : ∀ o ∈ s.stack, n ≤ o.indent) : (run wide
    s ((written n field v).map chomp)).map shut = .ok (update (shut s) field (some v.value)) := by
  rw [←append_nil ((written n field v).map chomp)]
  exact run_written_root hfield hv hne hroot trivial

end

theorem parseLines_append (hrun : run wide empty (pre.map chomp) = .ok s)
    (hpost : Plain (post.map chomp)) :
    parseLines wide (pre++post) = (run wide s (post.map chomp)).map shut := by
  rw [parseLines,map_append,run_append hpost,hrun]
  rfl

abbrev kept (line : Str) (after : List Str) : List Str :=
  after.dropWhile (!stops (leading line) ·)

/-- The editor finds the field in this line. -/
structure Found (text field : Str) (pre : List Str) (line : Str) (after : List Str) : Prop where
  drop : (splitLines text).dropWhile (!starts field ·) = line::after
  take : (splitLines text).takeWhile (!starts field ·) = pre

theorem Found.split (h : Found text field pre line after) : splitLines text = pre++line::after := by
  rw [←h.drop,←h.take,takeWhile_append_dropWhile]

theorem Found.starts (h : Found text field pre line after) : starts field line = true := by
  have hhead := head?_dropWhile_not (!Yaml.starts field ·) (splitLines text)
  rw [h.drop] at hhead
  simpa using hhead

section

variable {m : ℕ} (hfield : IsKey field) (hat : Found text field pre line after)

include hfield hat

section

variable (hv : v.Proper)
include hv

theorem splitLines_replaced : splitLines (updateYamlField text field v) = pre++(written (leading
    line) field v++kept line after) := by
  have hlines := isLines_splitLines text
  rw [hat.split] at hlines
  have hafter : IsLines (kept line after) := by
    have hline : IsLines ([line]++after) := hlines.tail
    have hrest : IsLines after := hline.tail
    rw [←takeWhile_append_dropWhile (p:=(!stops (leading line) ·)) (l:=after)] at hrest
    exact hrest.tail
  have hnew := hlines.replace (hlines.ended (by simp)) (isLines_written hfield hv hafter)
    (head_written (n:=leading line) hfield hv)
  rw [updateYamlField,hat.drop,hat.take]
  dsimp only
  rw [append_assoc]
  exact splitLines_of_isLines hnew

theorem comments_replaced_iff : (outside wide text field).Sublist (comments (splitLines
    (updateYamlField text field v))) ↔ comments ((after.takeWhile (!stops (leading line)
    ·)).drop (extent wide line after)) = [] := by
  rw [splitLines_replaced hfield hat hv,comments_append,comments_append,
    comments_written hfield hv,nil_append,outside,hat.drop,hat.take]
  dsimp only
  have hkept := comments_kept_iff (P:=comments pre) (extent wide line after)
    (after.takeWhile (!stops (leading line) ·)) (kept line after)
  rw [takeWhile_append_dropWhile] at hkept
  exact hkept

/-- The new text is read as the lines before, the field and the lines after. -/
theorem parse_replaced (hrun : run wide empty (pre.map chomp) = .ok s) : parseSimpleYaml wide
    (updateYamlField text field v) = (run wide s ((written (leading line) field v).map
    chomp++(kept line after).map chomp)).map shut := by
  have hplain : Plain ((written (leading line) field v++kept line after).map chomp) := by
    rw [map_append]
    exact plain_written hfield hv
  rw [parseSimpleYaml,splitLines_replaced hfield hat hv,parseLines_append hrun hplain,
    map_append]

theorem updated_of_fitsAt (hne : v ≠ .list []) (h : FitsAt wide pre line after r field) :
    Updated wide text r field v := by
  refine ⟨?_,(comments_replaced_iff hfield hat hv).mpr h.comments⟩
  obtain ⟨s,hrun,hroot⟩ := h.root
  obtain ⟨r1,r2,hr1,hr2,hnone,hrest⟩ := h.rest
  have hshut : shut s = r1 := by
    rw [parseLines,hrun] at hr1
    exact Except.ok.inj hr1
  rw [parse_replaced hfield hat hv hrun,
    run_written_root hfield hv hne hroot (stops_post after _),hshut]
  rw [parseLines] at hr2
  rw [hr2]
  refine congrArg Except.ok (funext fun k => ?_)
  by_cases hk : k = field
  · subst hk
    simp [onTop,hnone]
  · simp [onTop,hk,hrest k hk]

end

omit hfield hat in
theorem fresh_longer (hm : text.length+field.length ≤ m) :
    text.length < (fresh m).length ∧ field ≠ fresh m := by
  have hlen := fresh_length m
  refine ⟨by omega,fun heq => ?_⟩
  rw [heq] at hm
  omega

theorem fitsAt_of_updated (hparse : parseSimpleYaml wide text = .ok r)
    (hm : text.length+field.length ≤ m) (h : Updated wide text r field (freshValue m kind)) :
    FitsAt wide pre line after r field := by
  have hv := freshValue_proper m kind
  obtain ⟨hlong,hnew⟩ := fresh_longer hm
  have hstops := stops_post after (leading line)
  obtain ⟨s,hrun⟩ : ∃ s, run wide empty (pre.map chomp) = .ok s := by
    obtain ⟨t,ht,-⟩ := exists_shut hparse
    rw [hat.split,map_append] at ht
    obtain ⟨s,hs,-⟩ := exists_run_append (plain_of_starts hfield hat.starts) ht
    exact ⟨s,hs⟩
  obtain ⟨hread,hcomments⟩ := h
  rw [parse_replaced hfield hat hv hrun] at hread
  have hpre : FarState (fresh m) s := farState_empty.run (farLine_lines (fun l hl => by
    rw [hat.split]
    exact mem_append_left _ hl) hlong) hrun
  have hpost : ∀ raw ∈ (kept line after).map chomp, FarLine wide (fresh m) raw := by
    refine farLine_lines (fun l hl => ?_) hlong
    rw [hat.split]
    exact mem_append_right _ (mem_cons_of_mem _ ((dropWhile_sublist _).mem hl))
  have hroot := root_of_written hfield hv hstops hpre hpost hnew hread (by simp)
    (freshValue_not_far kind)
  rw [run_written_root hfield hv freshValue_ne hroot hstops] at hread
  refine ⟨(comments_replaced_iff hfield hat hv).mp hcomments,⟨s,hrun,hroot⟩,?_⟩
  cases hr2 : run wide empty ((kept line after).map chomp) with
  | error e =>
    rw [hr2] at hread
    cases hread
  | ok t =>
    rw [hr2] at hread
    have hread := fun k => congrFun (Except.ok.inj hread) k
    refine ⟨shut s,shut t,congrArg (Except.map shut) hrun,congrArg (Except.map shut) hr2,?_,
      fun k hk => ?_⟩
    · cases hf : shut t field with
      | none => rfl
      | some w =>
        have hw := hread field
        simp only [onTop,hf,Option.some_or,update_self] at hw
        have hfar := (farState_empty.run hpost hr2).shut hf
        rw [Option.some.inj hw] at hfar
        exact absurd hfar (freshValue_not_far kind)
    · have hk' := hread k
      simp only [onTop,update_of_ne hk] at hk'
      exact hk'.symm

end

theorem outside_unfound (hdrop : (splitLines text).dropWhile (!starts field ·) = []) :
    outside wide text field = comments (splitLines text) := by
  rw [outside,hdrop]

section

variable (hfield : IsKey field) (hparse : parseSimpleYaml wide text = .ok r)
  (hdrop : (splitLines text).dropWhile (!starts field ·) = [])
include hfield hparse hdrop

theorem updated_appended (hv : v.Proper)
    (hne : v ≠ .list []) (hkind : v.kind ≠ .ident) : Updated wide text r field v := by
  have htext : updateYamlField text field v = text++ '\n'::(written 0 field v).flatten := by
    rw [updateYamlField,hdrop]
    cases v with
    | list items => rfl
    | map entries => rfl
    | ident s => exact absurd rfl hkind
  have hwritten : splitLines (written 0 field v).flatten = written 0 field v := by
    rw [←append_nil (written 0 field v)]
    exact splitLines_of_isLines (isLines_written hfield hv trivial)
  obtain ⟨gap,hgap,hlines⟩ := chomp_splitLines_feed text (written 0 field v).flatten
  rw [hwritten,←htext,append_assoc] at hlines
  obtain ⟨s,hrun,rfl⟩ := exists_shut hparse
  refine ⟨?_,?_⟩
  · have hplain : Plain (gap++(written 0 field v).map chomp) := by
      have hw : Plain ((written 0 field v).map chomp) := plain_written_last hfield hv
      rcases hgap with rfl | rfl
      · exact hw
      · exact plain_skipped rfl hw
    have hskip : run wide s (gap++(written 0 field v).map chomp) =
        run wide s ((written 0 field v).map chomp) := by
      rcases hgap with rfl | rfl
      · rfl
      · rfl
    rw [parseSimpleYaml,parseLines,hlines,run_append hplain,hrun]
    exact (congrArg (Except.map shut) hskip).trans
      (run_written_last hfield hv hne fun _ _ => Nat.zero_le _)
  · rw [outside_unfound hdrop,comments,comments,hlines,filter_append]
    exact sublist_append_left _ _

theorem updated_closed (hx : IsIdent x) (htext : Closed text) : Updated wide text r field
    (.ident x) := by
  have hlines : splitLines (updateYamlField text field (.ident x)) =
      splitLines text++written 0 field (.ident x) := by
    have hold := isLines_splitLines text
    rw [←append_nil (splitLines text)] at hold
    have hwritten : IsLines (written 0 field (.ident x)++[]) :=
      isLines_written (v:=.ident x) hfield hx trivial
    have hnew := hold.replace htext.ended hwritten (head_written (v:=.ident x) hfield hx)
    rw [append_nil] at hnew
    have hflat := splitLines_of_isLines hnew
    rw [flatten_append,splitLines_flatten] at hflat
    rw [updateYamlField,hdrop]
    exact hflat
  obtain ⟨s,hrun,rfl⟩ := exists_shut hparse
  have hplain : Plain ((written 0 field (.ident x)).map chomp) :=
    plain_written_last (v:=.ident x) hfield hx
  refine ⟨?_,?_⟩
  · rw [parseSimpleYaml,hlines,parseLines_append hrun hplain]
    exact run_written_last hfield hx (by simp) fun _ _ => Nat.zero_le _
  · rw [outside_unfound hdrop,hlines,comments_append]
    exact sublist_append_left _ _

end

/-- Within a line, to which a name is appended. -/
structure OpenEnd (text field : Str) (lines : List Str) (last : Str) : Prop where
  drop : (splitLines text).dropWhile (!starts field ·) = []
  split : splitLines text = lines++[last]
  ended : ∀ l ∈ lines, Ended l
  ne_nil : last ≠ []
  unbroken : Unbroken last

variable {x u : Str} {m : ℕ}

section

variable (hfield : IsKey field) (hx : IsIdent x) (hopen : OpenEnd text field lines last)
include hfield hx hopen

theorem splitLines_joined : splitLines (updateYamlField text field (.ident x)) =
    lines++[last++(field++ ':':: ' '::x)++['\n']] := by
  have hbody := solid_scalar hfield hx.ne_nil hx.space
  have hold := isLines_splitLines text
  rw [hopen.split] at hold
  have hfeed : IsLines [last++(field++ ':':: ' '::x)++['\n']] := by
    have hend := ended_feed (unbroken_append hopen.unbroken hbody.unbroken)
    exact .inl ⟨hend,fun _ => by simp,trivial⟩
  have hhead : [last++(field++ ':':: ' '::x)++['\n']].flatten.head? ≠ some '\n' := by
    rw [flatten_singleton,append_assoc]
    exact head_ne_feed hopen.unbroken hopen.ne_nil
  have hnew := splitLines_of_isLines (hold.replace hopen.ended hfeed hhead)
  have htext : text = lines.flatten++last := by
    rw [←splitLines_flatten text,hopen.split,flatten_append,flatten_singleton]
  rw [flatten_append,flatten_singleton] at hnew
  rw [updateYamlField,hopen.drop]
  dsimp only
  rw [htext,←hnew]
  simp [appendix,written,headLine,itemLines,pad]

theorem parse_joined : parseSimpleYaml wide (updateYamlField text field (.ident x)) = (run wide
    empty (lines.map chomp++[last++(field++ ':':: ' '::x)])).map shut := by
  have hbody := solid_scalar hfield hx.ne_nil hx.space
  rw [parseSimpleYaml,splitLines_joined hfield hx hopen,parseLines,map_append,
    map_singleton,chomp_feed (unbroken_append hopen.unbroken hbody.unbroken)]

end

theorem OpenEnd.run (hopen : OpenEnd text field lines last)
    (hparse : parseSimpleYaml wide text = .ok r) :
    ∃ s, Yaml.run wide empty (lines.map chomp++[last]) = .ok s ∧ shut s = r := by
  obtain ⟨s,hs⟩ := exists_shut hparse
  rw [hopen.split,map_append,map_singleton,chomp_unbroken hopen.unbroken] at hs
  exact ⟨s,hs⟩

theorem strip_joined (hx : IsIdent x) : strip (u++ ':':: ' '::x) = lstrip u++ ':':: ' '::x := by
  have hlast : ∀ w : Str, rstrip (w++ ':':: ' '::x) = w++ ':':: ' '::x := by
    intro w
    obtain ⟨c,t,rfl,-⟩ := hx.exists_cons
    refine rstrip_eq_self fun d hd => hx.last d ?_
    rw [getLast?_append,getLast?_cons_cons,getLast?_cons_cons,
      getLast?_eq_some_getLast (by simp)] at hd
    rw [getLast?_eq_some_getLast (by simp)]
    exact hd
  by_cases hnil : strip u = []
  · have hall := strip_eq_nil.mp hnil
    rw [strip,lstrip_of_space hall,lstrip_eq_nil.mpr hall]
    exact hlast []
  · rw [strip,lstrip_append (strip_ne_nil.mp hnil),hlast]

theorem lstrip_length_le (u : Str) : (lstrip u).length ≤ u.length :=
  (dropWhile_sublist isSpace).length_le

theorem takeWhile_length_le_of_mem (h : ∃ c ∈ u, p c = false) : ((u++t).takeWhile p).length ≤
    u.length := by
  rw [takeWhile_append]
  split
  next hall =>
    obtain ⟨c,hc,hp⟩ := h
    have hself : u.takeWhile p = u := ( takeWhile_prefix p).eq_of_length hall
    rw [←hself] at hc
    rw [mem_takeWhile_imp hc] at hp
    cases hp
  · exact ( takeWhile_prefix p).length_le

theorem parseScalar_joined (hu : u.length < m) :
    Far (fresh m) (parseScalar wide (u++ ':':: ' '::fresh m)) := by
  have hlen := fresh_length m
  have hu' := lstrip_length_le u
  rw [parseScalar,strip_joined (fresh_isIdent m)]
  generalize lstrip u = w at hu'
  have hquoted : quoted (w++ ':':: ' '::fresh m) = false := by
    have hlast : (w++ ':':: ' '::fresh m).getLast? = some 'a' := by
      rw [fresh,replicate_succ',getLast?_append]
      simp [getLast?_cons]
    rw [quoted,hlast]
    by_cases hhead : (w++ ':':: ' '::fresh m).head? = some 'a'
    · rw [hhead]
      rfl
    · have hne : (some 'a' == (w++ ':':: ' '::fresh m).head?) = false :=
        beq_eq_false_iff_ne.mpr (Ne.symm hhead)
      rw [hne,Bool.and_false,Bool.false_and]
  cases hplain : parsePlain wide (w++ ':':: ' '::fresh m) with
  | some v =>
    rcases parsePlain_cases hplain with rfl | ⟨hq,-⟩ | ⟨b,rfl⟩ | rfl | ⟨i,rfl⟩
    · intro hnil
      rw [←hnil] at hlen
      cases hlen
    · rw [hquoted] at hq
      cases hq
    · trivial
    · trivial
    · trivial
  | none =>
    dsimp only
    split
    next hhash =>
      refine parseCut_far ?_
      have hw : '#' ∈ w := by
        rcases mem_append.mp hhash.1 with hw | htail
        · exact hw
        · simp only [mem_cons] at htail
          rcases htail with h | h | h
          · cases h
          · cases h
          · cases mem_fresh h
      have hcut := takeWhile_length_le_of_mem (p:=(· != '#')) (t:= ':':: ' '::fresh m)
        ⟨'#',hw,by decide⟩
      omega
    · intro heq
      have hcolon : ':' ∈ fresh m := by
        rw [←heq]
        simp
      cases mem_fresh hcolon

theorem farLine_joined (hlast : skipped last = false)
    (he : ∃ e, entryOf wide (strip last) = some e) (hm : last.length+field.length < m) :
    FarLine wide (fresh m) (last++(field++ ':':: ' '::fresh m)) := by
  have hlen := fresh_length m
  have hident := fresh_isIdent m
  have hspace : ∃ c ∈ last, isSpace c = false := by
    refine strip_ne_nil.mp fun hnil => ?_
    rw [skipped,hnil] at hlast
    cases hlast
  have hw := lstrip_length_le last
  have hsays : dash (lstrip last) = true ∨ ':' ∈ lstrip last := by
    obtain ⟨e,he⟩ := he
    have hpre : strip last <+: lstrip last := rdropWhile_prefix isSpace _
    rw [entryOf] at he
    split at he
    next hdash =>
      exact .inl ( isPrefixOf_iff_prefix.mpr
        (( isPrefixOf_iff_prefix.mp hdash).trans hpre))
    split at he
    next hcolon => exact .inr (hpre.subset hcolon)
    · cases he
  have hstrip : strip (last++(field++ ':':: ' '::fresh m)) =
      lstrip last++(field++ ':':: ' '::fresh m) := by
    rw [←append_assoc,strip_joined hident,lstrip_append hspace,append_assoc]
  intro _ e he
  rw [hstrip] at he
  generalize lstrip last = w at hw hsays he
  rw [entryOf] at he
  split at he
  next hdash =>
    have htwo : 2 ≤ w.length := by
      rcases w with _ | ⟨c,_ | ⟨d,w⟩⟩
      · simp [dash] at hsays
      · have hc : ':' = c := by simpa [dash,isPrefixOf] using hsays
        rw [←hc] at hdash
        cases hdash
      · simp
    have hbody : strip ((w++(field++ ':':: ' '::fresh m)).drop 2) =
        lstrip (w.drop 2++field)++ ':':: ' '::fresh m := by
      rw [drop_append_of_le_length htwo,←append_assoc,strip_joined hident]
    have hshort := lstrip_length_le (w.drop 2++field)
    rw [length_append,length_drop] at hshort
    dsimp only at he
    rw [hbody,if_pos (by simp)] at he
    cases he
    refine strip_ne_of_short ?_
    have hkey := takeWhile_length_le_of_mem (u:=lstrip (w.drop 2++field)++[':'])
      (p:=(· != ':')) (t:= ' '::fresh m) ⟨':',by simp,by decide⟩
    rw [append_assoc,singleton_append,length_append,length_singleton] at hkey
    exact lt_of_le_of_lt hkey (by omega)
  next hdash =>
    have hcolon : ':' ∈ w := by
      rcases hsays with hd | hc
      · refine absurd ( isPrefixOf_iff_prefix.mpr ?_) hdash
        exact ( isPrefixOf_iff_prefix.mp hd).trans (prefix_append _ _)
      · exact hc
    obtain ⟨a,b,rfl,ha⟩ := eq_append_cons_of_mem hcolon
    rw [length_append,length_cons] at hw
    have hpart : partitionColon (a++ ':'::b++(field++ ':':: ' '::fresh m)) =
        (a,(b++field)++ ':':: ' '::fresh m) := by
      rw [append_assoc,cons_append,partitionColon_append ha,append_assoc]
    have hshort := lstrip_length_le (b++field)
    rw [length_append] at hshort
    have hkey : strip a ≠ fresh m := strip_ne_of_short (by omega)
    dsimp only at he
    rw [if_pos (by simp),hpart,strip_joined hident] at he
    split at he
    · cases he
      exact hkey
    · cases he
      exact ⟨hkey,parseScalar_joined (by omega)⟩

theorem entryOf_of_run (h : run wide s lines = .ok s') : ∀ raw ∈ lines, skipped raw = false → ∃
    e, entryOf wide (strip raw) = some e := by
  induction lines generalizing s with
  | nil => exact forall_mem_nil _
  | cons d lines ih =>
    obtain ⟨t,hstep,hrun⟩ := run_cons h
    refine forall_mem_cons.mpr ⟨fun hskip => ?_,ih hrun⟩
    rcases step_cases hstep with ⟨hd,-⟩ | ⟨-,e,he,-⟩
    · rw [hskip] at hd
      cases hd
    · exact ⟨e,he⟩

theorem run_of_blank (hblank : skipped blank = true) (hrun : run wide empty (lines++[blank]) =
    .ok s) : run wide empty lines = .ok s := by
  obtain ⟨t,hpre,hrun⟩ := exists_run_append (plain_skipped hblank plain_nil) hrun
  rw [run,step,if_pos hblank] at hrun
  cases hrun
  exact hpre

theorem parse_blank (hfield : IsKey field) (hx : IsIdent x)
    (hopen : OpenEnd text field lines last) (hblank : strip last = [])
    (hrun : run wide empty (lines.map chomp) = .ok s) :
    parseSimpleYaml wide (updateYamlField text field (.ident x)) =
      (run wide s ((written (indentOf last) field (.ident x)).map chomp)).map shut := by
  have hbody := solid_scalar hfield hx.ne_nil hx.space
  have hentry : entryOf wide _ = _ :=
    entryOf_scalar hfield hx.ne_nil hx.space (hx.ne (by decide))
  have hspace := strip_eq_nil.mp hblank
  rw [parse_joined hfield hx hopen,run_append (plain_keyed hfield.dash hspace hbody),hrun,written,
    itemLines,headLine,map_singleton,chomp_pad hbody,run,step_pad hbody hentry]
  refine congrArg (Except.map shut) ?_
  rw [Except.bind,run,step_blank hspace hbody hentry]

theorem comments_joined (hfield : IsKey field) (hx : IsIdent x) (hblank : strip last = [])
    (hopen : Unbroken last) :
    comments [last] = [] ∧ comments [last++(field++ ':':: ' '::x)++['\n']] = [] := by
  have hbody := solid_scalar hfield hx.ne_nil hx.space
  have hspace := strip_eq_nil.mp hblank
  constructor
  · rw [comments,map_singleton,chomp_unbroken hopen,filter_singleton,isComment,
      lstrip_eq_nil.mpr hspace]
    rfl
  · rw [comments,map_singleton,chomp_feed (unbroken_append hopen hbody.unbroken),
      filter_singleton,isComment_blank hspace hbody]
    rfl

theorem updated_blank_iff (hfield : IsKey field) (hparse : parseSimpleYaml wide text = .ok r)
    (hopen : OpenEnd text field lines last) (hblank : strip last = []) :
    (∀ x, IsIdent x → Updated wide text r field (.ident x)) ↔
      Rootward wide lines (indentOf last) := by
  obtain ⟨s,hrun,rfl⟩ := hopen.run hparse
  have hskip : skipped last = true := by
    rw [skipped,hblank]
    rfl
  have hpre := run_of_blank hskip hrun
  constructor
  · intro h
    have hx := fresh_isIdent (text.length+field.length)
    obtain ⟨hlong,hnew⟩ := fresh_longer (Nat.le_refl (text.length+field.length))
    have hread := (h _ hx).1
    rw [parse_blank hfield hx hopen hblank hpre,
      ←append_nil ((written _ _ _).map chomp)] at hread
    have hfar : FarState (fresh (text.length+field.length)) s :=
      farState_empty.run (farLine_lines (fun l hl => by
        rw [hopen.split]
        exact mem_append_left _ hl) hlong) hpre
    have hend : Stops (indentOf last) [] := trivial
    exact ⟨s,hpre,root_of_written (v:=.ident _) hfield hx hend hfar (forall_mem_nil _) hnew
      hread (by simp) (freshValue_not_far .ident)⟩
  · rintro ⟨t,ht,hroot⟩ x hx
    cases hpre.symm.trans ht
    refine ⟨?_,?_⟩
    · rw [parse_blank hfield hx hopen hblank hpre]
      exact run_written_last (v:=.ident x) hfield hx (by simp) hroot
    · obtain ⟨hold,hnew⟩ := comments_joined hfield hx hblank hopen.unbroken
      rw [outside_unfound hopen.drop,splitLines_joined hfield hx hopen,hopen.split,comments_append,
        comments_append,hold,hnew]

theorem skipped_comment (h : skipped last = true) (hblank : strip last ≠ []) : skipped (last++t)
    = true := by
  have hhash : (lstrip last).head? = some '#' := by simpa [skipped,hblank] using h
  rw [skipped,lstrip_append (strip_ne_nil.mp hblank),head?_append,hhash]
  simp

section

variable (hfield : IsKey field) (hparse : parseSimpleYaml wide text = .ok r)
include hfield hparse

theorem not_updated_joined (hopen : OpenEnd text field lines last) (hblank : strip last ≠ [])
    (hm : text.length+field.length < m) : ¬Updated wide text r field (.ident (fresh m)) := by
  intro h
  obtain ⟨hlong,-⟩ := fresh_longer hm.le
  obtain ⟨s,hrun,-⟩ := hopen.run hparse
  have hlen : last.length ≤ text.length := by
    rw [←splitLines_flatten text,hopen.split,flatten_append,flatten_singleton,
      length_append]
    omega
  have hfar : FarLine wide (fresh m) (last++(field++ ':':: ' '::fresh m)) := by
    cases hskip : skipped last with
    | false =>
      have he := entryOf_of_run hrun last (by simp) hskip
      exact farLine_joined hskip he (by omega)
    | true =>
      -- the comment goes on
      intro hnew
      rw [skipped_comment hskip hblank] at hnew
      cases hnew
  have hread := h.1
  rw [parse_joined hfield (fresh_isIdent m) hopen] at hread
  obtain ⟨t,ht,hshut⟩ := exists_shut hread
  have hstate : FarState (fresh m) t := by
    refine farState_empty.run (forall_mem_append.mpr ⟨farLine_lines (fun l hl => ?_) hlong,
      forall_mem_singleton.mpr hfar⟩) ht
    rw [hopen.split]
    exact mem_append_left _ hl
  have hvalue : shut t field = some (.str (fresh m)) := by
    rw [hshut]
    exact update_self _ _ _
  exact hstate.shut hvalue rfl

/-- The texts to which every name can be appended. -/
theorem updated_ident_iff (hdrop : (splitLines text).dropWhile (!starts field ·) = []) : (∀ x,
    IsIdent x → Updated wide text r field (.ident x)) ↔ Closed text ∨ ∃ lines last, splitLines
    text = lines++[last] ∧ strip last = [] ∧ Rootward wide lines (indentOf last) := by
  rcases ended_or_open (isLines_splitLines text) with hall | ⟨lines,last,hopen⟩
  · have hclosed := closed_of_ended hall
    exact ⟨fun _ => .inl hclosed,fun _ x hx => updated_closed hfield hparse hdrop hx hclosed⟩
  have hopen : OpenEnd text field lines last :=
    ⟨hdrop,hopen.1,hopen.2.1,hopen.2.2.1,hopen.2.2.2⟩
  have hopened : ¬Closed text := fun hclosed =>
    (hclosed.ended last (by rw [hopen.split]; simp)).not_unbroken hopen.unbroken
  have hsame : ∀ {lines' last'}, splitLines text = lines'++[last'] → lines' = lines ∧ last' = last :=
    fun h => by simpa using append_inj' (h.symm.trans hopen.split) rfl
  by_cases hblank : strip last = []
  · rw [updated_blank_iff hfield hparse hopen hblank]
    constructor
    · exact fun hroot => .inr ⟨lines,last,hopen.split,hblank,hroot⟩
    · rintro (hclosed | ⟨lines',last',hlines',-,hroot⟩)
      · exact absurd hclosed hopened
      · obtain ⟨rfl,rfl⟩ := hsame hlines'
        exact hroot
  · have hnot := not_updated_joined hfield hparse hopen hblank (Nat.lt_succ_self _)
    constructor
    · exact fun h => absurd (h _ (fresh_isIdent _)) hnot
    · rintro (hclosed | ⟨lines',last',hlines',hblank',-⟩)
      · exact absurd hclosed hopened
      · obtain ⟨rfl,rfl⟩ := hsame hlines'
        exact absurd hblank' hblank

end

/-- For an accepted text, every value of a kind but the empty list is put into the field with
nothing else changed exactly when the text fits. An empty list never is: it is written as an empty
dict. -/
theorem field_updated_iff (wide : Char → Option ℕ) (text field : Str) (r : Str → Option Value)
    (kind : Kind) (hparse : parseSimpleYaml wide text = .ok r) (hfield : IsKey field) :
    ((∀ v : FieldValue, v.kind = kind → v.Proper → v ≠ .list [] → Updated wide text r field v) ↔
        Fits wide text r field kind) ∧
      ¬Updated wide text r field (.list []) := by
  refine ⟨?_,fun h => ?_⟩
  · rw [Fits]
    cases hdrop : (splitLines text).dropWhile (!starts field ·) with
    | cons line after =>
      constructor
      · intro h
        have hfresh := h (freshValue (text.length+field.length) kind) freshValue_kind
          (freshValue_proper _ kind) freshValue_ne
        exact fitsAt_of_updated hfield ⟨hdrop,rfl⟩ hparse (le_rfl) hfresh
      · exact fun h v _ hv hne => updated_of_fitsAt hfield ⟨hdrop,rfl⟩ hv hne h
    | nil =>
      have hident := updated_ident_iff hfield hparse hdrop
      constructor
      · rintro h rfl
        exact hident.mp fun x hx => h (.ident x) rfl hx (by simp)
      · intro h v hkind hv hne
        by_cases hk : v.kind = .ident
        · obtain ⟨x,rfl⟩ : ∃ x, v = .ident x := by
            cases v with
            | list items => cases hk
            | map entries => cases hk
            | ident x => exact ⟨x,rfl⟩
          exact hident.mpr (h (hkind ▸ hk)) x hv
        · exact updated_appended hfield hparse hdrop hv hne hk
  · exact parseLines_ne_nil h.1 (update_self _ _ _)

theorem isKey_mainApp : IsKey "main_app".toList :=
  IsIdent.isKey ⟨⟨'m',rfl,rfl⟩,all_eq_true.mp rfl,by decide⟩

theorem isIdent_clock : IsIdent "clock".toList :=
  ⟨⟨'c',rfl,rfl⟩,all_eq_true.mp rfl,by decide⟩

def named (name : String) : Str → Option Value :=
  update (fun _ => none) "name".toList (some (.str name.toList))

/-- The text may be given a new `main_app`, which is not the empty list. -/
theorem field_updated_named :
    ((∀ v : FieldValue, v.kind = .ident → v.Proper → v ≠ .list [] →
          Updated (fun _ => none) "name: tiny\n".toList (named "tiny") "main_app".toList v) ↔
        Fits (fun _ => none) "name: tiny\n".toList (named "tiny") "main_app".toList .ident) ∧
      ¬Updated (fun _ => none) "name: tiny\n".toList (named "tiny") "main_app".toList (.list []) :=
  field_updated_iff (fun _ => none) "name: tiny\n".toList "main_app".toList (named "tiny") .ident rfl
    isKey_mainApp

/-- Without a line end at the end of the text the name becomes part of the last field. -/
theorem update_joins :
    parseSimpleYaml (fun _ => none) "name: tiny".toList = .ok (named "tiny") ∧
    IsKey "main_app".toList ∧ IsIdent "clock".toList ∧
    updateYamlField "name: tiny".toList "main_app".toList (.ident "clock".toList) =
      "name: tinymain_app: clock\n".toList ∧
    parseSimpleYaml (fun _ => none) "name: tinymain_app: clock\n".toList =
      .ok (named "tinymain_app: clock") ∧
    ¬Updated (fun _ => none) "name: tiny".toList (named "tiny") "main_app".toList
      (.ident "clock".toList) := by
  have hnew : updateYamlField "name: tiny".toList "main_app".toList (.ident "clock".toList) =
      "name: tinymain_app: clock\n".toList := rfl
  have hread : parseSimpleYaml (fun _ => none) "name: tinymain_app: clock\n".toList =
      .ok (named "tinymain_app: clock") := rfl
  refine ⟨rfl,isKey_mainApp,isIdent_clock,hnew,hread,fun h => ?_⟩
  have hwant := h.1
  rw [hnew,hread] at hwant
  have hfield := congrFun (Except.ok.inj hwant) "main_app".toList
  rw [update_self] at hfield
  cases hfield

end TinyDeviceOs.Yaml
