import TinyDeviceOs.TtyBuffers

/-! The line discipline of the shell: a pure line editor, and the words that the commands get. -/
namespace TinyDeviceOs.TtyService

open LittleEndian LinkDispatch Runs List

structure Editor where
  content : Bytes
  escape : Escape

def Editor.start : Editor := ⟨[],.normal⟩

def isReturn (byte : UInt8) : Prop := byte = 0x0d ∨ byte = 0x0a
  deriving Decidable

def editPlain (content : Bytes) (byte : UInt8) : Bytes :=
  if isReturn byte ∨ byte = 0x03 then []
  else if byte = 0x08 ∨ byte = 0x7f then content.dropLast
  else if 0x20 ≤ byte ∧ byte ≤ 0x7e ∧ content.length < 127 then content++[byte]
  else content

/-- Escape sequences of two or three bytes are ignored. -/
def edit (e : Editor) (byte : UInt8) : Editor :=
  match e.escape with
  | .normal => if byte = 0x1b then ⟨e.content,.esc⟩ else ⟨editPlain e.content byte,.normal⟩
  | .esc => ⟨e.content,if byte = 0x5b then .csi else .normal⟩
  | .csi => ⟨e.content,.normal⟩

def entered (e : Editor) (byte : UInt8) : Option Bytes :=
  if e.escape = .normal ∧ isReturn byte then some e.content else none

def words (content : Bytes) : List Bytes :=
  (content.splitOnP fun b => b == 0x20).filter (· ≠ [])

/-- Bytes, reads, polls, a new session, and the rest of the system. -/
inductive Event (ω : Type)
  | byte (b : UInt8)
  | read (cap : ℕ)
  | poll (nowMs : UInt32)
  | opened
  | system (f : ω → ω)

variable {ω : Type} (sv : Services ω)

def rawStep (st : Raw × ω) : Event ω → Raw × ω
  | .byte b => st.1.input sv st.2 b
  | .read cap => ((st.1.read cap).2,st.2)
  | .poll nowMs => (st.1.poll sv st.2 nowMs,st.2)
  | .opened => (st.1.opened,st.2)
  | .system f => (st.1,f st.2)

def editEvent (e : Editor) : Event ω → Editor
  | .byte b => edit e b
  | _ => e

def passed (r : Raw) (byte : UInt8) : Option (List Bytes) :=
  if r.mode = .line ∧ r.escape = .normal ∧ isReturn byte then some (r.puts (text "\n")).argv
  else none

/-- The bounds of the two buffers. -/
structure Bounded (r : Raw) : Prop where
  len_nonneg : 0 ≤ r.len
  len_lt : r.len < 128
  terminated : r.line[r.len.toNat]? = some 0
  outLen_lt : r.outLen < 2048

variable {sv}

def wordsBy (p : UInt8 → Bool) (line : Bytes) : List Bytes := (line.splitOnP p).filter (· ≠ [])

theorem wordsBy_append (hsep : p sep = true) (x y : Bytes) : wordsBy p (x++sep::y) = wordsBy p
    x++wordsBy p y := by
  rw [wordsBy,splitOnP_append_cons x y hsep,filter_append]
  rfl

theorem wordsBy_word {x : Bytes} (hx : ∀ b ∈ x, p b = false) (hne : x ≠ []) :
    wordsBy p x = [x] := by
  rw [wordsBy,splitOnP_eq_singleton hx]
  simp [hne]

theorem wordsBy_dropWhile : wordsBy p (line.dropWhile p) = wordsBy p line := by
  induction line with
  | nil => rfl
  | cons b line ih =>
    cases hb : p b with
    | false => rw [dropWhile_cons,if_neg (by simp [hb])]
    | true =>
      rw [dropWhile_cons,if_pos hb,ih]
      exact (wordsBy_append hb [] line).symm

theorem parseArgs_eq (max : ℕ) (line : Bytes) :
    parseArgs max line = (wordsBy isSpace line).take max := by
  induction max generalizing line with
  | zero => rfl
  | succ max ih =>
    rw [parseArgs,←wordsBy_dropWhile]
    have hhead := head?_dropWhile_not isSpace line
    generalize line.dropWhile isSpace = p at hhead
    cases p with
    | nil => rfl
    | cons c p =>
      have hc : isSpace c = false := by simpa using hhead
      have hsplit : (c::p).takeWhile (!isSpace ·)++(c::p).dropWhile (!isSpace ·) = c::p :=
        takeWhile_append_dropWhile
      have hword : ∀ b ∈ (c::p).takeWhile (!isSpace ·), isSpace b = false := fun b hb => by
        simpa using mem_takeWhile_imp hb
      have hne : (c::p).takeWhile (!isSpace ·) ≠ [] := by simp [hc]
      have hstop := head?_dropWhile_not (!isSpace ·) (c::p)
      rw [if_neg (by simp),ih]
      generalize (c::p).takeWhile (!isSpace ·) = x at hsplit hword hne
      generalize (c::p).dropWhile (!isSpace ·) = y at hsplit hstop
      rw [←hsplit]
      cases y with
      | nil =>
        rw [append_nil,wordsBy_word hword hne]
        simp [wordsBy]
      | cons d y =>
        have hd : isSpace d = true := by simpa using hstop
        rw [wordsBy_append hd,wordsBy_word hword hne]
        rfl

theorem words_eq (h : ∀ b ∈ content, 0x20 ≤ b ∧ b ≤ 0x7e) : wordsBy isSpace content = words
    content := by
  have hblank : ∀ b ∈ content, isSpace b = (b == 0x20) := by
    intro b hb
    obtain ⟨hlow,-⟩ := h b hb
    have hno : ¬(0x09 ≤ b ∧ b ≤ 0x0d) := by grind
    rw [isSpace,Bool.beq_eq_decide_eq,decide_eq_decide]
    exact or_iff_left hno
  rw [wordsBy,words]
  congr 1
  clear h
  induction content with
  | nil => rfl
  | cons b content ih =>
    rw [splitOnP_cons_eq_if_modifyHead,splitOnP_cons_eq_if_modifyHead,
      hblank b mem_cons_self,ih fun c hc => hblank c (mem_cons_of_mem b hc)]

theorem putsAll_line (texts : List Bytes) (t : Tty) :
    (texts.foldl ttyPuts t).line = t.line ∧ (texts.foldl ttyPuts t).mode = t.mode ∧
      (texts.foldl ttyPuts t).escape = t.escape := by
  induction texts generalizing t with
  | nil => exact ⟨rfl,rfl,rfl⟩
  | cons s texts ih => exact ih (ttyPuts t s)

variable (sv) in
theorem execLine_line : (execLine (shell sv) t w).1.line = [] ∧ ((execLine (shell sv) t
    w).1.mode = .line → (execLine (shell sv) t w).1.escape = t.escape) := by
  rw [execLine]
  cases parseArgs ttyArgs t.line with
  | nil => exact ⟨rfl,fun _ => rfl⟩
  | cons a argv =>
    generalize hr : execWords sv (a::argv) w = reply
    have hcommand : (shell sv).command (a::argv) (clearLine t,w) =
        (reply.texts.foldl ttyPuts (takeTurn (clearLine t) reply.turn),reply.world) := by
      rw [←hr]
      rfl
    obtain ⟨hline,hmode,hescape⟩ := putsAll_line reply.texts (takeTurn (clearLine t) reply.turn)
    dsimp only
    rw [hcommand,hline,hmode,hescape]
    rcases reply.turn with _ | _ | _ | _
    · exact ⟨rfl,fun _ => rfl⟩
    · exact ⟨rfl,fun h => by cases h⟩
    · exact ⟨rfl,fun h => by cases h⟩
    · exact ⟨rfl,fun _ => rfl⟩

theorem lineByte_line (hnormal : t.escape = .normal)
    (hline : (lineByte (shell sv) t w byte).1.mode = .line) :
    (lineByte (shell sv) t w byte).1.line = editPlain t.line byte ∧
      (lineByte (shell sv) t w byte).1.escape = .normal := by
  rw [lineByte] at hline ⊢
  rw [editPlain]
  by_cases hc : byte = 0x03
  · rw [if_pos hc,if_pos (.inr hc)]
    exact ⟨rfl,hnormal⟩
  rw [if_neg hc] at hline ⊢
  by_cases hnl : byte = 0x0d ∨ byte = 0x0a
  · rw [if_pos hnl] at hline ⊢
    rw [if_pos (.inl hnl)]
    obtain ⟨hempty,hescape⟩ := execLine_line sv
    dsimp only at hline ⊢
    split_ifs at hline ⊢ with hstay
    · exact ⟨hempty,(hescape hstay.1).trans hnormal⟩
    · exact ⟨hempty,(hescape hline).trans hnormal⟩
  have hother : ¬(isReturn byte ∨ byte = 0x03) := by
    rintro (h | h)
    · exact hnl h
    · exact hc h
  rw [if_neg hnl,if_neg hother]
  by_cases hbs : byte = 0x7f ∨ byte = 0x08
  · rw [if_pos hbs,if_pos hbs.symm]
    split_ifs with hnil
    · rw [hnil]
      exact ⟨rfl,hnormal⟩
    · exact ⟨rfl,hnormal⟩
  have hbs' : ¬(byte = 0x08 ∨ byte = 0x7f) := fun h => hbs h.symm
  rw [if_neg hbs,if_neg hbs']
  have hfits := t.line_fits
  by_cases hodd : byte < 0x20 ∨ 0x7e < byte
  · rw [if_pos hodd,if_neg (by grind)]
    exact ⟨rfl,hnormal⟩
  rw [if_neg hodd]
  by_cases hfull : ttyLine ≤ t.line.length+1
  · rw [dif_pos hfull,if_neg (by rw [ttyLine] at hfull; omega)]
    exact ⟨rfl,hnormal⟩
  · have hroom : 0x20 ≤ byte ∧ byte ≤ 0x7e ∧ t.line.length < 127 := by
      rw [ttyLine] at hfull
      grind
    rw [dif_neg hfull,if_pos hroom]
    exact ⟨rfl,hnormal⟩

/-- In line mode the line is edited as by the editor. -/
theorem inputByte_line (hmode : t.mode = .line)
    (hline : (inputByte (shell sv) (t,w) byte).1.mode = .line) :
    (inputByte (shell sv) (t,w) byte).1.line = (edit ⟨t.line,t.escape⟩ byte).content ∧
      (inputByte (shell sv) (t,w) byte).1.escape = (edit ⟨t.line,t.escape⟩ byte).escape := by
  simp only [inputByte,hmode,edit] at hline ⊢
  cases hescape : t.escape with
  | esc => exact ⟨rfl,rfl⟩
  | csi => exact ⟨rfl,rfl⟩
  | normal =>
    rw [hescape] at hline
    dsimp only at hline ⊢
    split_ifs at hline ⊢ with hesc
    · exact ⟨rfl,rfl⟩
    · exact lineByte_line hescape hline

/-- The buffers show a line that is the editor's. -/
def Tracks (r : Raw) (e : Editor) : Prop :=
  ∃ t, Shows r t ∧ t.line = e.content ∧ t.escape = e.escape

theorem Shows.bounded (hshows : Shows r t) : Bounded r := by
  obtain ⟨z,hz⟩ := hshows.line
  have hlen := hshows.len
  have hline := t.line_fits
  have hout := t.out_fits
  rw [ttyLine] at hline
  rw [ttyOut,←hshows.outLen] at hout
  refine ⟨by omega,by omega,?_,hout⟩
  have hindex : r.len.toNat = t.line.length := by omega
  rw [hindex,hz]
  simp

theorem Tracks.step (h : Tracks r e) (hmode : r.mode = .line) (event : Event ω)
    (hline : (rawStep sv (r,w) event).1.mode = .line) :
    Tracks (rawStep sv (r,w) event).1 (editEvent e event) := by
  obtain ⟨t,hshows,hcontent,hescape⟩ := h
  cases event with
  | byte b =>
    obtain ⟨hnext,-⟩ := hshows.input sv w b
    have hstay : (inputByte (shell sv) (t,w) b).1.mode = .line := hnext.mode.symm.trans hline
    obtain ⟨hc,he⟩ := inputByte_line (hshows.mode.symm.trans hmode) hstay
    rw [hcontent,hescape] at hc he
    exact ⟨_,hnext,hc,he⟩
  | read cap => exact ⟨_,(hshows.read cap).2,hcontent,hescape⟩
  | poll nowMs =>
    refine ⟨_,hshows.poll sv w nowMs,?_⟩
    rw [ttyServicePoll,if_pos]
    · exact ⟨hcontent,hescape⟩
    · rw [←hshows.mode,hmode]
      decide
  | opened => exact ⟨_,hshows.opened,hcontent,hescape⟩
  | system f => exact ⟨t,hshows,hcontent,hescape⟩

theorem Tracks.passed (h : Tracks r e) (hmode : r.mode = .line) (byte : UInt8) :
    passed r byte = (entered e byte).map fun content => (words content).take 8 := by
  obtain ⟨t,hshows,hcontent,hescape⟩ := h
  have hargv : (r.puts (text "\n")).argv = (words e.content).take 8 := by
    rw [(hshows.puts _).argv,parseArgs_eq]
    change (wordsBy isSpace t.line).take 8 = _
    rw [words_eq hshows.printable,hcontent]
  rw [TtyService.passed,entered,hargv,hshows.escape,hescape]
  by_cases hr : e.escape = .normal ∧ isReturn byte
  · rw [if_pos hr,if_pos ⟨hmode,hr⟩]
    rfl
  · rw [if_neg hr,if_neg fun hall => hr hall.2]
    rfl

theorem shown_step (st : Raw × ω) (event : Event ω) (h : ∃ t, Shows st.1 t) :
    ∃ t, Shows (rawStep sv st event).1 t := by
  obtain ⟨t,hshows⟩ := h
  cases event with
  | byte b => exact ⟨_,(hshows.input sv st.2 b).1⟩
  | read cap => exact ⟨_,(hshows.read cap).2⟩
  | poll nowMs => exact ⟨_,hshows.poll sv st.2 nowMs⟩
  | opened => exact ⟨_,hshows.opened⟩
  | system f => exact ⟨t,hshows⟩

theorem Tracks.run (h : Tracks st.1 e) (hline : Along (rawStep sv) (fun st => st.1.mode = .line)
    st events) : Tracks (after (rawStep sv) st events).1 (after editEvent e events) ∧ (after
    (rawStep sv) st events).1.mode = .line := by
  induction events generalizing st e with
  | nil => exact ⟨h,hline⟩
  | cons event events ih =>
    obtain ⟨hmode,hrest⟩ := hline
    exact ih (h.step (w:=st.2) hmode event hrest.head) hrest

/-- From reset the buffers keep their bounds. In line mode the words that a byte passes to the
commands are the first eight of the editor's content at a return, and none otherwise. -/
theorem line_discipline (sv : Services ω) (w : ω) (events : List (Event ω)) :
    Along (rawStep sv) (fun st => Bounded st.1) (Raw.reset,w) events ∧
      (Along (rawStep sv) (fun st => st.1.mode = .line) (Raw.reset,w) events → ∀ byte,
        passed (after (rawStep sv) (Raw.reset,w) events).1 byte =
          (entered (after editEvent Editor.start events) byte).map fun content =>
            (words content).take 8) := by
  refine ⟨along_of_invariant shown_step (fun st h => h.elim fun t ht => ht.bounded)
    ⟨_,shows_reset⟩,fun hline byte => ?_⟩
  have hstart : Tracks Raw.reset Editor.start := ⟨_,shows_reset,rfl,rfl⟩
  obtain ⟨htracks,hmode⟩ := hstart.run hline
  exact htracks.passed hmode byte

def bareServices : Services Unit where
  taskSlots _ := []
  appList _ := some []
  foregroundName _ := none
  appFind _ _ := none
  appKitSwitch _ w := (w,-1)
  appKitRequestStop _ w := (w,-1)
  appResume _ w := w
  appStop _ w := (w,-1)
  handleKey _ _ w := w
  sensors _ := []
  deviceInfo _ := none
  clockNow _ := 0
  clockSet _ w := (w,-1)
  clockServiceSet _ w := (w,-1)
  freeHeap _ := 0
  minFreeHeap _ := 0
  timeNowMs _ := 0
  flashDir _ := none
  readFile _ _ := none
  strtol _ := none
  handlers := none
  reboot := none
  cli := []

/-- `ls`, after a letter that is taken back and an arrow key. -/
def typedLs : List (Event Unit) :=
  [.byte 0x78,.byte 0x7f,.byte 0x1b,.byte 0x5b,.byte 0x41,.byte 0x6c,.byte 0x73]

theorem line_discipline_ls :
    passed (after (rawStep bareServices) (Raw.reset,()) typedLs).1 0x0d =
      (entered (after editEvent Editor.start typedLs) 0x0d).map fun content =>
        (words content).take 8 := by
  refine (line_discipline bareServices () typedLs).2 ?_ 0x0d
  exact ⟨rfl,rfl,rfl,rfl,rfl,rfl,rfl,rfl⟩

end TinyDeviceOs.TtyService
