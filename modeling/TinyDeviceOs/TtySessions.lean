import TinyDeviceOs.TtyEditor

/-! Sessions of the shell: what a session of the host leaves behind for the next one. -/
namespace TinyDeviceOs.TtyService

open LittleEndian LinkDispatch Runs Observations List

/-- The bytes of a read, and the words that a return executes. -/
inductive Seen
  | output (bytes : Bytes)
  | command (argv : List Bytes)
  | nothing
  deriving DecidableEq

variable {ω : Type} (sv : Services ω)

def ttyStep (st : Tty × ω) : Event ω → Tty × ω
  | .byte b => inputByte (shell sv) st b
  | .read cap => ((ttyServiceRead st.1 cap).2,st.2)
  | .poll nowMs => (ttyServicePoll (shell sv) st.1 st.2 nowMs,st.2)
  | .opened => (ttyServiceOpen st.1,st.2)
  | .system f => (st.1,f st.2)

def ttySeen (st : Tty × ω) : Event ω → Seen
  | .byte b =>
    if st.1.mode = .line ∧ st.1.escape = .normal ∧ isReturn b then
      .command (parseArgs ttyArgs st.1.line)
    else .nothing
  | .read cap => .output (ttyServiceRead st.1 cap).1
  | _ => .nothing

def rawSeen (st : Raw × ω) : Event ω → Seen
  | .byte b =>
    match passed st.1 b with
    | some argv => .command argv
    | none => .nothing
  | .read cap => .output (st.1.read cap).1
  | _ => .nothing

/-- For every part of the lines from the start, as backspaces bring it back. -/
def SameWords (x y : Bytes) : Prop :=
  x.length = y.length ∧ ∀ k, parseArgs ttyArgs (x.take k) = parseArgs ttyArgs (y.take k)

variable {sv} {t u : Tty} {w : ω}

/-- On its buffers the service shows what it shows on lists. -/
theorem Shows.trace (h : Shows r t) (w : ω) (events : List (Event ω)) :
    trace (rawStep sv) rawSeen (r,w) events = trace (ttyStep sv) ttySeen (t,w) events := by
  refine trace_eq_of_simulation (R:=Beside Shows) ?_ ⟨h,rfl⟩ events
  rintro ⟨r,w⟩ ⟨t,_⟩ event ⟨h,rfl⟩
  cases event with
  | byte b =>
    refine ⟨?_,h.input sv w b⟩
    change (match passed r b with | some argv => Seen.command argv | none => .nothing) =
      if t.mode = .line ∧ t.escape = .normal ∧ isReturn b then _ else _
    rw [passed,h.mode,h.escape,(h.puts _).argv]
    split_ifs with hret
    · rfl
    · rfl
  | read cap => exact ⟨congrArg Seen.output (h.read cap).1,(h.read cap).2,rfl⟩
  | poll nowMs => exact ⟨rfl,h.poll sv w nowMs,rfl⟩
  | opened => exact ⟨rfl,h.opened,rfl⟩
  | system f => exact ⟨rfl,h,rfl⟩

/-- So it does in every run from reset on. -/
theorem buffers_refine_lists (sv : Services ω) (w : ω) (events : List (Event ω)) :
    trace (rawStep sv) rawSeen (Raw.reset,w) events =
      trace (ttyStep sv) ttySeen (ttyServiceReset,w) events :=
  shows_reset.trace w events

/-- Those that are over, and the one at its end. -/
def closeWord (st : List Bytes × Bytes) : List Bytes :=
  if st.2 = [] then st.1 else st.1++[st.2]

def wordStep (st : List Bytes × Bytes) (b : UInt8) : List Bytes × Bytes :=
  if isSpace b then (closeWord st,[]) else (st.1,st.2++[b])

theorem closeWord_after (hw : ∀ b ∈ st.2, isSpace b = false) : closeWord (after wordStep st x) =
    st.1++wordsBy isSpace (st.2++x) := by
  have hclose : ∀ st : List Bytes × Bytes, (∀ b ∈ st.2, isSpace b = false) →
      closeWord st = st.1++wordsBy isSpace st.2 := by
    intro st hw
    rw [closeWord]
    split_ifs with hnil
    · rw [hnil]
      simp [wordsBy]
    · rw [wordsBy_word hw hnil]
  induction x generalizing st with
  | nil => rw [append_nil,after_nil,hclose st hw]
  | cons b x ih =>
    rw [after_cons]
    by_cases hb : isSpace b = true
    · have hstep : wordStep st b = (closeWord st,[]) := if_pos hb
      rw [hstep,ih (by simp),wordsBy_append hb,hclose st hw,append_assoc]
      rfl
    · have hstep : wordStep st b = (st.1,st.2++[b]) := if_neg hb
      rw [hstep,ih]
      · rw [append_assoc]
        rfl
      · intro c hc
        rcases mem_append.mp hc with hc | hc
        · exact hw c hc
        · rw [mem_singleton.mp hc]
          simpa using hb

theorem parseArgs_after (max : ℕ) (x : Bytes) :
    parseArgs max x = (closeWord (after wordStep ([],[]) x)).take max := by
  rw [parseArgs_eq,closeWord_after (by simp)]
  rfl

/-- The same words, or more than the commands get, and those the same. -/
def Level (s s' : List Bytes × Bytes) : Prop :=
  s = s' ∨ (ttyArgs ≤ s.1.length ∧ ttyArgs ≤ s'.1.length ∧ s.1.take ttyArgs = s'.1.take ttyArgs)

theorem closeWord_full (h : ttyArgs ≤ s.1.length) :
    ttyArgs ≤ (closeWord s).length ∧ (closeWord s).take ttyArgs = s.1.take ttyArgs := by
  rw [closeWord]
  split_ifs
  · exact ⟨h,rfl⟩
  · exact ⟨by rw [length_append]; omega,take_append_of_le_length h⟩

theorem wordStep_full (h : ttyArgs ≤ s.1.length) : ttyArgs ≤ (wordStep s b).1.length ∧ (wordStep
    s b).1.take ttyArgs = s.1.take ttyArgs := by
  rw [wordStep]
  split_ifs
  · exact closeWord_full h
  · exact ⟨h,rfl⟩

theorem Level.words (h : Level s s') :
    (closeWord s).take ttyArgs = (closeWord s').take ttyArgs := by
  rcases h with rfl | ⟨hs,hs',hsame⟩
  · rfl
  · rw [(closeWord_full hs).2,(closeWord_full hs').2,hsame]

theorem level_full (hs : ttyArgs ≤ s.1.length) (hs' : ttyArgs ≤ s'.1.length)
    (hsame : s.1.take ttyArgs = s'.1.take ttyArgs) : Level (wordStep s b) (wordStep s' c) := by
  obtain ⟨hlen,htake⟩ := wordStep_full hs
  obtain ⟨hlen',htake'⟩ := wordStep_full hs'
  exact .inr ⟨hlen,hlen',by rw [htake,htake',hsame]⟩

theorem Level.step (h : Level s s') (b : UInt8) :
    Level (wordStep s b) (wordStep s' b) := by
  rcases h with rfl | ⟨hs,hs',hsame⟩
  · exact .inl rfl
  · exact level_full hs hs' hsame

theorem blank_seen (hroom : s.1.length < ttyArgs)
    (hb : isSpace b = true) (hc : isSpace c = false) :
    (closeWord (wordStep s b)).take ttyArgs ≠ (closeWord (wordStep s c)).take ttyArgs := by
  have hword : closeWord (wordStep s c) = s.1++[s.2++[c]] := by simp [wordStep,closeWord,hc]
  have hblank : closeWord (wordStep s b) = closeWord s := by simp [wordStep,hb,closeWord]
  have hfits : (s.1++[s.2++[c]]).length ≤ ttyArgs := by
    rw [length_append]
    exact hroom
  rw [hword,hblank,take_of_length_le hfits,closeWord]
  split_ifs with hnil
  · rw [take_of_length_le hroom.le]
    simp
  · rw [take_of_length_le (by rw [length_append]; exact hroom)]
    simp

theorem Level.next (h : Level s s') (hwords : (closeWord (wordStep s b)).take ttyArgs = (closeWord (wordStep s' c)).take ttyArgs) :
    Level (wordStep s b) (wordStep s' c) := by
  rcases h with rfl | ⟨hs,hs',hsame⟩
  · by_cases hroom : ttyArgs ≤ s.1.length
    · exact level_full hroom hroom rfl
    have hlt : s.1.length < ttyArgs := Nat.lt_of_not_le hroom
    cases hb : isSpace b with
    | true =>
      cases hc : isSpace c with
      | true => exact .inl (by rw [wordStep,wordStep,if_pos hb,if_pos hc])
      | false => exact absurd hwords (blank_seen hlt hb hc)
    | false =>
      cases hc : isSpace c with
      | true => exact absurd hwords.symm (blank_seen hlt hc hb)
      | false =>
        have hword : ∀ d, isSpace d = false → (closeWord (wordStep s d)).take ttyArgs =
            s.1++[s.2++[d]] := by
          intro d hd
          have hclose : closeWord (wordStep s d) = s.1++[s.2++[d]] := by
            simp [wordStep,closeWord,hd]
          rw [hclose,take_of_length_le (by rw [length_append]; exact hlt)]
        rw [hword b hb,hword c hc] at hwords
        obtain rfl : b = c := by simpa using hwords
        exact .inl rfl
  · exact level_full hs hs' hsame

theorem SameWords.level (h : SameWords x y) :
    Level (after wordStep ([],[]) x) (after wordStep ([],[]) y) := by
  have hprefix : ∀ n ≤ x.length, Level (after wordStep ([],[]) (x.take n))
      (after wordStep ([],[]) (y.take n)) := by
    intro n hn
    induction n with
    | zero => exact .inl rfl
    | succ n ih =>
      have hy : n < y.length := h.1 ▸ hn
      have hwords := h.2 (n+1)
      rw [take_succ_eq_append_getElem hn,take_succ_eq_append_getElem hy] at hwords ⊢
      rw [parseArgs_after,parseArgs_after,after_append,after_append] at hwords
      rw [after_append,after_append]
      exact (ih (by omega)).next hwords
  have hall := hprefix x.length (le_rfl)
  rwa [take_length,h.1,take_length] at hall

theorem SameWords.refl (x : Bytes) : SameWords x x := ⟨rfl,fun _ => rfl⟩

theorem SameWords.whole (h : SameWords x y) :
    parseArgs ttyArgs x = parseArgs ttyArgs y := by
  have hall := h.2 x.length
  rwa [take_length,h.1,take_length] at hall

theorem SameWords.dropLast (h : SameWords x y) :
    SameWords x.dropLast y.dropLast := by
  refine ⟨by rw [length_dropLast,length_dropLast,h.1],fun k => ?_⟩
  rw [dropLast_eq_take,dropLast_eq_take,take_take,take_take,h.1]
  exact h.2 _

theorem sameWords_of_dropLast (h : SameWords x.dropLast y.dropLast)
    (hx : x ≠ []) (hy : y ≠ []) (hwhole : parseArgs ttyArgs x = parseArgs ttyArgs y) :
    SameWords x y := by
  have hxpos := length_pos_iff.mpr hx
  have hypos := length_pos_iff.mpr hy
  have hlen : x.length = y.length := by
    have := h.1
    rw [length_dropLast,length_dropLast] at this
    omega
  refine ⟨hlen,fun k => ?_⟩
  by_cases hk : k < x.length
  · have hprefix := h.2 k
    rwa [dropLast_eq_take,dropLast_eq_take,take_take,take_take,
      min_eq_left (by omega),min_eq_left (by omega)] at hprefix
  · rw [take_of_length_le (by omega),take_of_length_le (by omega),hwhole]

theorem SameWords.typed (h : SameWords x y) (b : UInt8) :
    SameWords (x++[b]) (y++[b]) := by
  have hwhole : parseArgs ttyArgs (x++[b]) = parseArgs ttyArgs (y++[b]) := by
    rw [parseArgs_after,parseArgs_after,after_append,after_append]
    exact (h.level.step b).words
  refine sameWords_of_dropLast ?_ (by simp) (by simp) hwhole
  rwa [dropLast_concat,dropLast_concat]

/-- Two services that no host tells apart. -/
structure Sim (t u : Tty) : Prop where
  line : SameWords t.line u.line
  out : t.out = u.out
  mode : t.mode = u.mode
  escape : t.escape = u.escape
  closed : t.closed = u.closed
  htop : t.mode = .htop → t.htopArmed = u.htopArmed ∧ t.htopMs = u.htopMs

section

variable (h : Sim t u)
include h

theorem Sim.puts (s : Bytes) : Sim (ttyPuts t s) (ttyPuts u s) :=
  { h with out := congrArg (fun out : Bytes => out++s.take (ttyOut-1-out.length)) h.out }

theorem Sim.putsAll (texts : List Bytes) :
    Sim (texts.foldl ttyPuts t) (texts.foldl ttyPuts u) := by
  induction texts generalizing t u with
  | nil => exact h
  | cons s texts ih => exact ih (h.puts s)

theorem Sim.prompt : Sim (ttyPrompt t) (ttyPrompt u) := h.puts _

theorem Sim.clear : Sim (clearLine t) (clearLine u) :=
  { h with line := .refl [] }

theorem Sim.setEscape (e : Escape) :
    Sim { t with escape := e } { u with escape := e } := { h with escape := rfl }

theorem Sim.leave : Sim (leaveMode t) (leaveMode u) := by
  have hmode : Sim { t with mode := .line, escape := .normal }
      { u with mode := .line, escape := .normal } :=
    { h with mode := rfl, escape := rfl, htop := fun hm => by cases hm }
  exact (hmode.clear.puts _).prompt

theorem Sim.turn (turn : Option Turn) : Sim (takeTurn t turn) (takeTurn u turn) := by
  rcases turn with _ | _ | _ | _
  · exact h
  · exact { h with mode := rfl, escape := rfl, htop := fun hm => by cases hm }
  · exact { h with mode := rfl, htop := fun _ => ⟨rfl,rfl⟩ }
  · exact { h with closed := rfl }

variable (w)

variable (sv) in
theorem Sim.exec (w : ω) :
    Beside Sim (execLine (shell sv) t w) (execLine (shell sv) u w) := by
  rw [execLine,execLine,h.line.whole]
  cases parseArgs ttyArgs u.line with
  | nil => exact ⟨h.clear,rfl⟩
  | cons a argv => exact ⟨(h.clear.turn _).putsAll _,rfl⟩

variable (byte : UInt8)

theorem Sim.lineByte :
    Beside Sim (lineByte (shell sv) t w byte) (lineByte (shell sv) u w byte) := by
  rw [TtyService.lineByte,TtyService.lineByte]
  refine Beside.ite (fun _ => ⟨(h.clear.puts _).prompt,rfl⟩) fun _ => ?_
  refine Beside.ite (fun _ => ?_) fun _ => ?_
  · obtain ⟨hexec,hworld⟩ := Sim.exec sv (h.puts (text "\n")) w
    dsimp only
    rw [hexec.mode,hexec.closed]
    refine ⟨?_,hworld⟩
    split_ifs
    · exact hexec.prompt
    · exact hexec
  have hempty : t.line = [] ↔ u.line = [] := by
    rw [←length_eq_zero_iff,←length_eq_zero_iff,h.line.1]
  refine Beside.ite (fun _ => ?_) fun _ => ?_
  · by_cases hnil : t.line = []
    · rw [if_pos hnil,if_pos (hempty.mp hnil)]
      exact ⟨h,rfl⟩
    · rw [if_neg hnil,if_neg (mt hempty.mpr hnil)]
      refine ⟨Sim.puts ?_ _,rfl⟩
      exact { h with line := h.line.dropLast }
  refine Beside.ite (fun _ => ⟨h,rfl⟩) fun _ => ?_
  by_cases hfull : ttyLine ≤ t.line.length+1
  · rw [dif_pos hfull,dif_pos (h.line.1 ▸ hfull)]
    exact ⟨h,rfl⟩
  · rw [dif_neg hfull,dif_neg (h.line.1 ▸ hfull)]
    refine ⟨Sim.puts ?_ _,rfl⟩
    exact { h with line := h.line.typed byte }

theorem Sim.attachKey (key : ℕ) :
    Beside Sim (attachKey (shell sv) t w key) (attachKey (shell sv) u w key) := by
  dsimp only [TtyService.attachKey]
  exact ⟨h.puts _,rfl⟩

theorem Sim.attachByte :
    Beside Sim (attachByte (shell sv) t w byte) (attachByte (shell sv) u w byte) := by
  rw [TtyService.attachByte,TtyService.attachByte,h.escape]
  refine Beside.ite (fun _ => ⟨h.leave,rfl⟩) fun _ => ?_
  cases u.escape with
  | esc =>
    dsimp only
    split_ifs
    · exact ⟨h.setEscape .csi,rfl⟩
    · exact (h.setEscape .normal).attachKey w keyEscape
  | csi =>
    dsimp only
    split_ifs
    · exact (h.setEscape .normal).attachKey w keyUp
    · exact (h.setEscape .normal).attachKey w keyDown
    · exact (h.setEscape .normal).attachKey w keyRight
    · exact (h.setEscape .normal).attachKey w keyLeft
    · exact ⟨h.setEscape .normal,rfl⟩
  | normal =>
    dsimp only
    split_ifs
    · exact ⟨h.setEscape .esc,rfl⟩
    cases keyFromByte byte with
    | some key => exact h.attachKey w key
    | none => exact ⟨h,rfl⟩

theorem Sim.input :
    Beside Sim (inputByte (shell sv) (t,w) byte) (inputByte (shell sv) (u,w) byte) := by
  have hline : ∀ e, Sim { t with mode := .line, escape := e }
      { u with mode := .line, escape := e } := fun e =>
    { h with mode := rfl, escape := rfl, htop := fun hm => by cases hm }
  rw [inputByte,inputByte,h.mode,h.escape]
  cases u.mode with
  | htop =>
    dsimp only
    split_ifs
    · exact ⟨h.leave,rfl⟩
    · exact ⟨h,rfl⟩
  | attach => exact h.attachByte w byte
  | line =>
    cases u.escape with
    | esc => exact ⟨hline _,rfl⟩
    | csi => exact ⟨hline _,rfl⟩
    | normal =>
      dsimp only
      split_ifs
      · exact ⟨hline _,rfl⟩
      · exact h.lineByte w byte

theorem Sim.poll (nowMs : UInt32) : Sim (ttyServicePoll (shell sv) t w nowMs) (ttyServicePoll
    (shell sv) u w nowMs) := by
  rw [ttyServicePoll,ttyServicePoll]
  by_cases hmode : t.mode = .htop
  · have hmode' : u.mode = .htop := h.mode.symm.trans hmode
    obtain ⟨harmed,hms⟩ := h.htop hmode
    rw [if_neg (not_not_intro hmode),if_neg (not_not_intro hmode'),harmed,hms]
    split_ifs
    · exact { h with mode := h.mode, htop := fun _ => ⟨rfl,rfl⟩ }
    · exact h
    · refine Sim.putsAll (Sim.puts (Sim.puts ?_ _) _) _
      exact { h with mode := h.mode, htop := fun _ => ⟨rfl,rfl⟩ }
  · rw [if_pos hmode,if_pos (h.mode ▸ hmode)]
    exact h

theorem Sim.alike : Alike (ttyStep sv) ttySeen (t,w) (u,w) := by
  refine trace_eq_of_simulation (R:=Beside Sim) ?_ ⟨h,rfl⟩
  rintro ⟨t,w⟩ ⟨u,_⟩ event ⟨h,rfl⟩
  cases event with
  | byte b =>
    refine ⟨?_,h.input w b⟩
    rw [ttySeen,ttySeen]
    dsimp only
    rw [h.mode,h.escape,h.line.whole]
  | read cap =>
    refine ⟨congrArg (fun out : Bytes => Seen.output (out.take cap)) h.out,?_,rfl⟩
    exact { h with out := congrArg (drop cap) h.out }
  | poll nowMs => exact ⟨rfl,h.poll w nowMs,rfl⟩
  | opened =>
    refine ⟨rfl,Sim.prompt ?_,rfl⟩
    exact { h with mode := rfl, closed := rfl, htop := fun hm => by cases hm }
  | system f => exact ⟨rfl,h,rfl⟩

end

/-- A line mode with nothing pending but the line. -/
structure Idle (t : Tty) : Prop where
  mode : t.mode = .line
  escape : t.escape = .normal
  out : t.out = []

theorem read_all (t : Tty) : (ttyServiceRead t ttyOut).1 = t.out ∧
    (ttyServiceRead t ttyOut).2.out = [] :=
  ⟨take_of_length_le t.out_fits.le,drop_of_length_le t.out_fits.le⟩

theorem alike_out (h : Alike (ttyStep sv) ttySeen (t,w) (u,w)) : t.out = u.out := by
  have hseen := Seen.output.inj (h.seen_eq (.read ttyOut))
  rwa [(read_all t).1,(read_all u).1] at hseen

variable (sv w) in
theorem interrupt_out (hmode : t.mode = .line) (hout : t.out = []) :
    ∃ t', inputByte (shell sv) (t,w) 0x03 = (t',w) ∧ (t'.out ≠ [] ↔ t.escape = .normal) := by
  rw [inputByte,hmode]
  cases hescape : t.escape with
  | normal =>
    refine ⟨_,rfl,iff_of_true ?_ rfl⟩
    simp [ttyPrompt,ttyPuts,clearLine,hout,text,ttyOut]
  | _ => exact ⟨_,rfl,iff_of_false (not_not_intro hout) (by simp)⟩

section

variable (h : Alike (ttyStep sv) ttySeen (t,w) (u,w)) (hmode : t.mode = .line) (hmode' : u.mode =
  .line) (hout : t.out = [])
include h hmode hmode' hout

theorem alike_normal : t.escape = .normal ↔ u.escape = .normal := by
  obtain ⟨t',ht,hiff⟩ := interrupt_out sv w hmode hout
  obtain ⟨u',hu,hiff'⟩ := interrupt_out sv w hmode' (alike_out h ▸ hout)
  have hnext := h.next (.byte 0x03)
  rw [ttyStep,ttyStep,ht,hu] at hnext
  rw [←hiff,←hiff',alike_out hnext]

theorem alike_escape : t.escape = u.escape := by
  have hnormal := alike_normal h hmode hmode' hout
  -- a bracket turns the two other states into different ones
  have hbracket : ∀ t : Tty, t.mode = .line → t.escape ≠ .normal →
      ttyStep sv (t,w) (.byte 0x5b) =
        ({ t with escape := if t.escape = .esc then .csi else .normal },w) := by
    intro t hmode hescape
    rw [ttyStep,inputByte,hmode]
    cases he : t.escape with
    | normal => exact absurd he hescape
    | esc => rfl
    | csi => rfl
  by_cases hescape : t.escape = .normal
  · rw [hescape,hnormal.mp hescape]
  have hescape' : u.escape ≠ .normal := mt hnormal.mpr hescape
  have hnext := h.next (.byte 0x5b)
  rw [hbracket t hmode hescape,hbracket u hmode' hescape'] at hnext
  have hafter := alike_normal hnext hmode hmode' hout
  revert hescape hescape' hafter
  dsimp only
  generalize t.escape = e, u.escape = e'
  cases e <;> cases e' <;> simp

end

variable (sv w) in
theorem erase (h : Idle t) : ∃ t', ttyStep sv (t,w) (.byte 0x08) = (t',w) ∧
    (t'.out = [] ↔ t.line = []) ∧ Idle (ttyServiceRead t' ttyOut).2 ∧
      t'.line = t.line.dropLast := by
  have hstep : ttyStep sv (t,w) (.byte 0x08) = lineByte (shell sv) t w 0x08 := by
    rw [ttyStep,inputByte,h.mode,h.escape]
    rfl
  rw [hstep,lineByte,if_neg (by decide),if_neg (by decide),if_pos (by decide)]
  split_ifs with hnil
  · refine ⟨t,rfl,iff_of_true h.out hnil,⟨h.mode,h.escape,(read_all t).2⟩,?_⟩
    rw [hnil]
    rfl
  · refine ⟨_,rfl,iff_of_false ?_ hnil,⟨h.mode,h.escape,(read_all _).2⟩,rfl⟩
    simp [ttyPuts,h.out,ttyOut]

theorem alike_lines (h : Alike (ttyStep sv) ttySeen (t,w) (u,w)) (ht : Idle t) (hu : Idle u) :
    SameWords t.line u.line := by
  generalize hn : t.line.length = n
  induction n generalizing t u with
  | zero =>
    obtain ⟨t',hstep,hempty,-⟩ := erase sv w ht
    obtain ⟨u',hstep',hempty',-⟩ := erase sv w hu
    have hnext := h.next (.byte 0x08)
    rw [hstep,hstep'] at hnext
    have hnil := eq_nil_of_length_eq_zero hn
    have hnil' : u.line = [] := hempty'.mp (alike_out hnext ▸ hempty.mpr hnil)
    rw [hnil,hnil']
    exact .refl []
  | succ n ih =>
    obtain ⟨t',hstep,hempty,hidle,hline⟩ := erase sv w ht
    obtain ⟨u',hstep',hempty',hidle',hline'⟩ := erase sv w hu
    have hnext := h.next (.byte 0x08)
    rw [hstep,hstep'] at hnext
    have hne : t.line ≠ [] := fun hnil => by simp [hnil] at hn
    have hne' : u.line ≠ [] := fun hnil => hne (hempty.mp (alike_out hnext ▸ hempty'.mpr hnil))
    have hshorter : SameWords t'.line u'.line := by
      refine ih (t:=(ttyServiceRead t' ttyOut).2) (u:=(ttyServiceRead u' ttyOut).2)
        (hnext.next (.read ttyOut)) hidle hidle' ?_
      change t'.line.length = n
      rw [hline,length_dropLast,hn]
      rfl
    rw [hline,hline'] at hshorter
    refine sameWords_of_dropLast hshorter hne hne' ?_
    have hseen := h.seen_eq (.byte 0x0d)
    rw [ttySeen,ttySeen,if_pos ⟨ht.mode,ht.escape,.inl rfl⟩,
      if_pos ⟨hu.mode,hu.escape,.inl rfl⟩] at hseen
    exact Seen.command.inj hseen

theorem alike_words (h : Alike (ttyStep sv) ttySeen (t,w) (u,w)) (hmode : t.mode = .line)
    (hmode' : u.mode = .line) (hout : t.out = []) : SameWords t.line u.line := by
  have hescape := alike_escape h hmode hmode' hout
  by_cases hnormal : t.escape = .normal
  · exact alike_lines h ⟨hmode,hnormal,hout⟩
      ⟨hmode',hescape.symm.trans hnormal,(alike_out h).symm.trans hout⟩
  -- a letter ends the escape sequence of both
  have hletter : ∀ t : Tty, t.mode = .line → t.escape ≠ .normal →
      ttyStep sv (t,w) (.byte 0x61) = ({ t with escape := .normal },w) := by
    intro t hmode hescape
    rw [ttyStep,inputByte,hmode]
    cases he : t.escape with
    | normal => exact absurd he hescape
    | esc => rfl
    | csi => rfl
  have hnext := h.next (.byte 0x61)
  rw [hletter t hmode hnormal,hletter u hmode' (hescape ▸ hnormal)] at hnext
  have hwords := alike_lines hnext ⟨hmode,rfl,hout⟩ ⟨hmode',rfl,(alike_out h).symm.trans hout⟩
  exact hwords

/-- The waiting output, the escape state and the words of the half-typed line agree. -/
structure LeftAlike (t u : Tty) : Prop where
  out : (ttyServiceOpen t).out = (ttyServiceOpen u).out
  escape : t.escape = u.escape
  line : SameWords t.line u.line

/-- A new session shows nothing of the events before it if and only if they are left alike. -/
theorem sessions_alike_iff (sv : Services ω) (w w₁ w₂ : ω) (earlier₁ earlier₂ : List (Event ω)) :
    Alike (ttyStep sv) ttySeen
        (ttyServiceOpen (after (ttyStep sv) (ttyServiceReset,w₁) earlier₁).1,w)
        (ttyServiceOpen (after (ttyStep sv) (ttyServiceReset,w₂) earlier₂).1,w) ↔
      LeftAlike (after (ttyStep sv) (ttyServiceReset,w₁) earlier₁).1
        (after (ttyStep sv) (ttyServiceReset,w₂) earlier₂).1 := by
  generalize (after (ttyStep sv) (ttyServiceReset,w₁) earlier₁).1 = t
  generalize (after (ttyStep sv) (ttyServiceReset,w₂) earlier₂).1 = u
  constructor
  · intro h
    have hread : Alike (ttyStep sv) ttySeen
        ((ttyServiceRead (ttyServiceOpen t) ttyOut).2,w)
        ((ttyServiceRead (ttyServiceOpen u) ttyOut).2,w) := h.next (.read ttyOut)
    have hout := (read_all (ttyServiceOpen t)).2
    have hescape := alike_escape hread rfl rfl hout
    have hline := alike_words hread rfl rfl hout
    exact ⟨alike_out h,hescape,hline⟩
  · intro h
    have hsim : Sim (ttyServiceOpen t) (ttyServiceOpen u) :=
      ⟨h.line,h.out,rfl,h.escape,rfl,fun hm => by cases hm⟩
    exact hsim.alike w

/-- An `he` that nobody entered, all its output read. -/
def halfTyped : List (Event Unit) := [.byte 0x68,.byte 0x65,.read ttyOut]

/-- The next session types `lp`, and `help` runs. -/
theorem half_typed_line_runs :
    trace (ttyStep bareServices) ttySeen
        (ttyServiceOpen (after (ttyStep bareServices) (ttyServiceReset,()) []).1,())
        [.byte 0x6c,.byte 0x70,.byte 0x0d] = [.nothing,.nothing,.command [text "lp"]] ∧
      trace (ttyStep bareServices) ttySeen
        (ttyServiceOpen (after (ttyStep bareServices) (ttyServiceReset,()) halfTyped).1,())
        [.byte 0x6c,.byte 0x70,.byte 0x0d] = [.nothing,.nothing,.command [text "help"]] := by
  decide +kernel

end TinyDeviceOs.TtyService
