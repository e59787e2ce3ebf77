import TinyDeviceOs.TtyCommands

/-! The shell on its buffers, arrays with their lengths, which refines the shell on lists. -/
namespace TinyDeviceOs.TtyService

open LittleEndian LinkDispatch List

/-- The static variables of the service. -/
structure Raw where
  line : Bytes
  len : ℤ
  out : Bytes
  outLen : ℕ
  mode : Mode
  escape : Escape
  (htopArmed closed : Bool)
  htopMs : UInt32

/-- `while (*p && q(*p)) p++`. -/
def scan (q : UInt8 → Bool) (buf : Bytes) (p : ℕ) : ℕ :=
  p+((buf.drop p).takeWhile fun b => b ≠ 0 && q b).length

/-- From `p` on: the buffer, and where the words start. -/
def parseArgsAt : ℕ → Bytes → ℕ → Bytes × List ℕ
  | 0,buf,_ => (buf,[])
  | max+1,buf,p =>
    let start := scan isSpace buf p
    if buf.getD start 0 = 0 then (buf,[])
    else
      let stop := scan (!isSpace ·) buf start
      let rest := if buf.getD stop 0 ≠ 0 then parseArgsAt max (buf.set stop 0) (stop+1)
        else parseArgsAt max buf stop
      (rest.1,start::rest.2)

def argvOf (r : Bytes × List ℕ) : List Bytes := r.2.map fun p => cstr (r.1.drop p)

def memcpyAt (dst : Bytes) (i : ℕ) (src : Bytes) : Bytes :=
  dst.take i++src++dst.drop (i+src.length)

namespace Raw

variable {ω : Type} (sv : Services ω)

def reset : Raw where
  line := replicate ttyLine 0
  len := 0
  out := replicate ttyOut 0
  outLen := 0
  mode := .line
  escape := .normal
  htopArmed := false
  closed := false
  htopMs := 0

variable (r : Raw)

def puts (s : Bytes) : Raw :=
  let n := if ttyOut ≤ r.outLen+s.length then ttyOut-1-r.outLen else s.length
  if n = 0 then r
  else { r with
    out := (memcpyAt r.out r.outLen (s.take n)).set (r.outLen+n) 0
    outLen := r.outLen+n }

def prompt : Raw := r.puts (text "ardubot$ ")

def setLine (i : ℤ) (b : UInt8) : Raw := { r with line := r.line.set i.toNat b }

def clear : Raw := { r with len := 0 }.setLine 0 0

def opened : Raw := { r with closed := false, mode := .line }.prompt

def read (cap : ℕ) : Bytes × Raw :=
  let n := if r.outLen < cap then r.outLen else cap
  (r.out.take n,{ r with
    out := memcpyAt r.out 0 ((r.out.drop n).take (r.outLen-n))
    outLen := r.outLen-n })

def leave : Raw :=
  (({ r with mode := .line, escape := .normal }.clear).puts (text "\n")).prompt

def turnTo : Option Turn → Raw
  | none => r
  | some .attach => { r with mode := .attach, escape := .normal }
  | some .htop => { r with mode := .htop, htopArmed := false, htopMs := 0 }
  | some .close => { r with closed := true }

def argv : List Bytes := argvOf (parseArgsAt ttyArgs r.line 0)

variable (w : ω)

def exec : Raw × ω :=
  match r.argv with
  | [] => (r.clear,w)
  | argv =>
    let reply := execWords sv argv w
    (reply.texts.foldl puts (r.clear.turnTo reply.turn),reply.world)

variable (byte : UInt8)

def lineByte : Raw × ω :=
  if byte = 0x03 then (((r.clear).puts (text "^C\n")).prompt,w)
  else if byte = 0x0d ∨ byte = 0x0a then
    let (r,w) := (r.puts (text "\n")).exec sv w
    (if r.mode = .line ∧ r.closed = false then r.prompt else r,w)
  else if byte = 0x7f ∨ byte = 0x08 then
    if 0 < r.len then ((({ r with len := r.len-1 }.setLine (r.len-1) 0).puts [0x08,0x20,0x08]),w)
    else (r,w)
  else if byte < 0x20 ∨ 0x7e < byte then (r,w)
  else if (ttyLine : ℤ) ≤ r.len+1 then (r,w)
  else ((({ r.setLine r.len byte with len := r.len+1 }.setLine (r.len+1) 0).puts [byte]),w)

def attachKey (key : ℕ) : Raw × ω :=
  (r.puts (text "key "++text (toString key)++text "\n"),(shell sv).tapKey key w)

def attachByte : Raw × ω :=
  if byte = 0x03 ∨ byte = 0x1a then (r.leave,w)
  else match r.escape with
    | .esc =>
      if byte = 0x5b then ({ r with escape := .csi },w)
      else attachKey sv { r with escape := .normal } w keyEscape
    | .csi =>
      let r := { r with escape := .normal }
      if byte = 0x41 then attachKey sv r w keyUp
      else if byte = 0x42 then attachKey sv r w keyDown
      else if byte = 0x43 then attachKey sv r w keyRight
      else if byte = 0x44 then attachKey sv r w keyLeft
      else (r,w)
    | .normal =>
      if byte = 0x1b then ({ r with escape := .esc },w)
      else match keyFromByte byte with
        | some key => attachKey sv r w key
        | none => (r,w)

/-- One turn of the loop of `tty_service_input`. -/
def input : Raw × ω :=
  match r.mode with
  | .htop => (if byte = 0x03 then r.leave else r,w)
  | .attach => attachByte sv r w byte
  | .line =>
    match r.escape with
    | .esc => ({ r with escape := if byte = 0x5b then .csi else .normal },w)
    | .csi => ({ r with escape := .normal },w)
    | .normal => if byte = 0x1b then ({ r with escape := .esc },w) else lineByte sv r w byte

def poll (nowMs : UInt32) : Raw :=
  if r.mode ≠ .htop then r
  else if r.htopArmed = false then { r with htopArmed := true, htopMs := nowMs }
  else if nowMs-r.htopMs < ttyHtopMs then r
  else (taskTable sv w).foldl puts { r with htopMs := nowMs }

end Raw

variable {x y : Bytes}

theorem scan_eq (hx : ∀ b ∈ x, b ≠ 0 ∧ q b = true) (hy : ∀ b ∈ y.head?, b = 0 ∨ q b = false) :
    scan q (pre++x++y) pre.length = (pre++x).length := by
  have hall : ∀ b ∈ x, (b ≠ 0 && q b) = true := fun b hb => by simpa using hx b hb
  have hstop : y.takeWhile (fun b => b ≠ 0 && q b) = [] := by
    cases y with
    | nil => rfl
    | cons b y =>
      rw [takeWhile_cons,if_neg]
      rcases hy b rfl with rfl | hb
      · simp
      · simp [hb]
  rw [scan,append_assoc,drop_left,takeWhile_append_of_pos hall,hstop]
  simp

theorem cstr_append (hx : 0 ∉ x) (hy : ∀ b ∈ y.head?, b = 0) :
    cstr (x++y) = x := by
  have hall : ∀ b ∈ x, decide (b ≠ 0) = true := fun b hb => by
    simpa using fun h : b = 0 => hx (h ▸ hb)
  have hstop : y.takeWhile (fun b => decide (b ≠ 0)) = [] := by
    cases y with
    | nil => rfl
    | cons b y =>
      rw [takeWhile_cons,if_neg]
      simp [hy b rfl]
  rw [cstr,takeWhile_append_of_pos hall,hstop,append_nil]

theorem parseArgs_nil (max : ℕ) : parseArgs max [] = [] := by
  cases max <;> rfl

theorem getD_length : (x++y).getD x.length 0 = y.headD 0 := by
  cases y <;> simp

variable {z : Bytes}

theorem headD_zero (hz : ∀ b ∈ z.head?, b = 0) : z.headD 0 = 0 := by
  cases z with
  | nil => rfl
  | cons b z => exact hz b rfl

theorem parseArgsAt_word (max : ℕ) {pre sp w : Bytes} (hsp : ∀ b ∈ sp, b ≠ 0 ∧ isSpace b = true)
    (hw : ∀ b ∈ w, b ≠ 0 ∧ isSpace b = false) (hne : w ≠ [])
    (hy : ∀ b ∈ y.head?, b = 0 ∨ isSpace b = true) :
    parseArgsAt (max+1) (pre++sp++(w++y)) pre.length =
      let rest := if y.headD 0 ≠ 0
        then parseArgsAt max ((pre++sp++w++y).set (pre++sp++w).length 0) ((pre++sp++w).length+1)
        else parseArgsAt max (pre++sp++w++y) (pre++sp++w).length
      (rest.1,(pre++sp).length::rest.2) := by
  obtain ⟨c,w',rfl⟩ := exists_cons_of_ne_nil hne
  have hstart : scan isSpace (pre++sp++(c::w'++y)) pre.length = (pre++sp).length := by
    refine scan_eq hsp fun b hb => ?_
    cases hb
    exact .inr (hw c mem_cons_self).2
  have hstop : scan (!isSpace ·) (pre++sp++(c::w'++y)) (pre++sp).length =
      (pre++sp++c::w').length := by
    rw [←append_assoc]
    refine scan_eq (fun b hb => ?_) fun b hb => ?_
    · simpa using hw b hb
    · simpa using hy b hb
  have hfirst : (pre++sp++(c::w'++y)).getD (pre++sp).length 0 ≠ 0 := by
    rw [getD_length]
    exact (hw c mem_cons_self).1
  have hafter : (pre++sp++(c::w'++y)).getD (pre++sp++c::w').length 0 = y.headD 0 := by
    rw [←append_assoc,getD_length]
  rw [parseArgsAt]
  simp only [hstart,hstop,hfirst,hafter,if_false]
  rw [append_assoc (pre++sp)]

theorem parseArgsAt_blank (max : ℕ) (pre : Bytes) (hsp : ∀ b ∈ sp, b ≠ 0 ∧ isSpace b = true) (hz :
    ∀ b ∈ z.head?, b = 0) : parseArgsAt max (pre++sp++z) pre.length = (pre++sp++z,[]) := by
  cases max with
  | zero => rfl
  | succ max =>
    have hstart : scan isSpace (pre++sp++z) pre.length = (pre++sp).length :=
      scan_eq hsp fun b hb => .inl (hz b hb)
    rw [parseArgsAt]
    simp only [hstart,getD_length,headD_zero hz,if_true]

/-- It writes only into the string, and points to its words. -/
theorem parseArgsAt_eq (max : ℕ) (pre : Bytes) (hs : 0 ∉ s) (hz : ∀ b ∈ z.head?, b = 0) : (∃ s',
    s'.length = s.length ∧ (parseArgsAt max (pre++s++z) pre.length).1 = pre++s'++z) ∧ argvOf
    (parseArgsAt max (pre++s++z) pre.length) = parseArgs max s := by
  induction max generalizing pre s with
  | zero => exact ⟨⟨s,rfl,rfl⟩,rfl⟩
  | succ max ih =>
    have hsp : ∀ b ∈ s.takeWhile isSpace, b ≠ 0 ∧ isSpace b = true := fun b hb =>
      ⟨fun h => hs (h ▸ ( takeWhile_prefix _).subset hb),mem_takeWhile_imp hb⟩
    have hsplit : s.takeWhile isSpace++s.dropWhile isSpace = s := takeWhile_append_dropWhile
    have hhead := head?_dropWhile_not isSpace s
    rw [parseArgs]
    generalize s.takeWhile isSpace = sp at hsp hsplit
    generalize s.dropWhile isSpace = t at hsplit hhead
    subst hsplit
    cases t with
    | nil =>
      rw [append_nil,parseArgsAt_blank (max+1) pre hsp hz]
      exact ⟨⟨sp,rfl,rfl⟩,rfl⟩
    | cons c t =>
      have hc : isSpace c = false := by simpa using hhead
      have hnul : 0 ∉ c::t := fun h => hs (mem_append_right _ h)
      have hw : ∀ b ∈ (c::t).takeWhile (!isSpace ·), b ≠ 0 ∧ isSpace b = false := fun b hb =>
        ⟨fun h => hnul (h ▸ ( takeWhile_prefix _).subset hb),
          by simpa using mem_takeWhile_imp hb⟩
      have hne : (c::t).takeWhile (!isSpace ·) ≠ [] := by simp [hc]
      have hword : (c::t).takeWhile (!isSpace ·)++(c::t).dropWhile (!isSpace ·) = c::t :=
        takeWhile_append_dropWhile
      have hstop := head?_dropWhile_not (!isSpace ·) (c::t)
      rw [if_neg (by simp)]
      generalize (c::t).takeWhile (!isSpace ·) = w at hw hne hword
      generalize (c::t).dropWhile (!isSpace ·) = u at hword hstop
      rw [←hword] at hnul ⊢
      have hw0 : 0 ∉ w := fun h => (hw 0 h).1 rfl
      have hshow : ∀ s' : Bytes, (∀ b ∈ (s'++z).head?, b = 0) →
          cstr ((pre++sp++w++s'++z).drop (pre++sp).length) = w := by
        intro s' hs'
        rw [append_assoc,append_assoc,drop_left]
        exact cstr_append hw0 hs'
      have hbuf : pre++(sp++(w++u))++z = pre++sp++(w++(u++z)) := by simp
      rw [hbuf]
      cases u with
      | nil =>
        rw [nil_append,parseArgsAt_word max hsp hw hne fun b hb => .inl (hz b hb),
          headD_zero hz,if_neg (by simp)]
        have hnil := parseArgsAt_blank max (pre++sp++w) (z:=z) (fun _ h => absurd h not_mem_nil) hz
        rw [append_nil] at hnil
        rw [hnil,argvOf]
        refine ⟨⟨sp++w,by simp,by simp⟩,?_⟩
        rw [drop_nil,parseArgs_nil,map_singleton]
        have hlast := hshow [] hz
        rw [append_nil] at hlast
        rw [hlast]
      | cons d u =>
        have hd : isSpace d = true := by simpa using hstop
        have hd0 : d ≠ 0 := fun h => hnul (by rw [h]; simp)
        have hset : (pre++sp++w++(d::u++z)).set (pre++sp++w).length 0 =
            (pre++sp++w++[0])++u++z := by simp
        rw [parseArgsAt_word max hsp hw hne (by rintro b hb; cases hb; exact .inr hd),
          if_pos (by simpa using hd0),hset]
        have hpos : (pre++sp++w).length+1 = (pre++sp++w++[0]).length := by
          simp only [length_append,length_singleton]
        obtain ⟨⟨s',hlen,hrest⟩,hargs⟩ := ih (pre++sp++w++[0]) (s:=u)
          fun h => hnul (by simp [h])
        rw [hpos]
        generalize parseArgsAt max (pre++sp++w++[0]++u++z) (pre++sp++w++[0]).length = rest
          at hrest hargs
        refine ⟨⟨sp++w++0::s',by simp [hlen],by rw [hrest]; simp⟩,?_⟩
        have hfirst : cstr (rest.1.drop (pre++sp).length) = w := by
          rw [hrest,append_assoc (pre++sp++w)]
          exact hshow (0::s') fun b hb => by cases hb; rfl
        rw [argvOf,map_cons,hfirst]
        exact congrArg (w::·) hargs

section

/-- Each list with its terminator's place. -/
structure Shows (r : Raw) (t : Tty) : Prop where
  lineSize : r.line.length = ttyLine
  line : ∃ z, r.line = t.line++0::z
  len : r.len = t.line.length
  printable : ∀ b ∈ t.line, 0x20 ≤ b ∧ b ≤ 0x7e
  outSize : r.out.length = ttyOut
  out : ∃ z, r.out = t.out++z
  outLen : r.outLen = t.out.length
  mode : r.mode = t.mode
  escape : r.escape = t.escape
  htopArmed : r.htopArmed = t.htopArmed
  closed : r.closed = t.closed
  htopMs : r.htopMs = t.htopMs

variable {ω : Type} {sv : Services ω} {r : Raw} {t : Tty} {w : ω}

theorem shows_reset : Shows Raw.reset ttyServiceReset where
  lineSize := length_replicate (n:=ttyLine)
  line := ⟨replicate (ttyLine-1) 0,replicate_succ⟩
  len := rfl
  printable _ h := by cases h
  outSize := length_replicate (n:=ttyOut)
  out := ⟨replicate ttyOut 0,(nil_append _).symm⟩
  outLen := rfl
  mode := rfl
  escape := rfl
  htopArmed := rfl
  closed := rfl
  htopMs := rfl

theorem Shows.nul (h : Shows r t) : 0 ∉ t.line := fun h0 => by
  have := (h.printable 0 h0).1
  revert this
  decide

theorem memcpyAt_append : memcpyAt (x++y) x.length src = x++src++y.drop src.length := by
  rw [memcpyAt,take_left,drop_append,drop_eq_nil_of_le (Nat.le_add_right _ _)]
  simp

/-- Related, and with the same system. -/
abbrev Beside (R : α → β → Prop) (a : α × ω) (b : β × ω) : Prop := R a.1 b.1 ∧ a.2 = b.2

theorem Beside.ite {R : α → β → Prop} {a a' : α × ω} {b b' : β × ω} [Decidable c]
    (hpos : c → Beside R a b) (hneg : ¬c → Beside R a' b') :
    Beside R (if c then a else a') (if c then b else b') := by
  split_ifs with hc
  · exact hpos hc
  · exact hneg hc

section

variable (h : Shows r t)
include h

theorem Shows.puts (s : Bytes) : Shows (r.puts s) (ttyPuts t s) := by
  obtain ⟨z,hz⟩ := h.out
  have hsize := h.outSize
  have hfits := t.out_fits
  rw [hz,length_append] at hsize
  have htake : ∀ n, (if ttyOut ≤ r.outLen+s.length then ttyOut-1-r.outLen else s.length) = n →
      s.take n = s.take (ttyOut-1-t.out.length) ∧ n ≤ s.length ∧ t.out.length+n < ttyOut := by
    rintro n rfl
    rw [h.outLen]
    split_ifs with hfull
    · exact ⟨rfl,by omega,by omega⟩
    · rw [take_of_length_le (le_rfl),take_of_length_le (by omega)]
      exact ⟨rfl,le_rfl,by omega⟩
  rw [Raw.puts]
  generalize hn : (if ttyOut ≤ r.outLen+s.length then _ else _) = n
  obtain ⟨hsame,hle,hroom⟩ := htake n hn
  have hlen : (s.take n).length = n := length_take_of_le hle
  split_ifs with hzero
  · have hnil : t.out++s.take (ttyOut-1-t.out.length) = t.out := by
      rw [←hsame,hzero]
      simp
    exact { h with
      out := ⟨z,hz.trans (congrArg (·++z) hnil.symm)⟩
      outLen := h.outLen.trans (congrArg length hnil).symm }
  · have hwrite : (memcpyAt r.out r.outLen (s.take n)).set (r.outLen+n) 0 =
        t.out++s.take n++(z.drop n).set 0 0 := by
      rw [h.outLen,hz,memcpyAt_append,hlen,set_append_right _ _ (by simp [hlen])]
      simp [hlen]
    refine { h with
      outSize := ?_
      out := ⟨(z.drop n).set 0 0,?_⟩
      outLen := ?_ }
    · rw [hwrite,length_append,length_append,hlen,length_set,length_drop]
      omega
    · rw [hwrite,hsame]
      rfl
    · rw [h.outLen]
      change _ = (t.out++s.take (ttyOut-1-t.out.length)).length
      rw [←hsame,length_append,hlen]

theorem Shows.putsAll (texts : List Bytes) :
    Shows (texts.foldl Raw.puts r) (texts.foldl ttyPuts t) := by
  induction texts generalizing r t with
  | nil => exact h
  | cons s texts ih => exact ih (h.puts s)

theorem Shows.clear : Shows r.clear (clearLine t) := by
  obtain ⟨z,hz⟩ := h.line
  have hcons : ∃ b y, r.line = b::y := by
    rw [hz]
    cases t.line with
    | nil => exact ⟨_,_,rfl⟩
    | cons b x => exact ⟨_,_,rfl⟩
  obtain ⟨b,y,hy⟩ := hcons
  refine { h with
    lineSize := by
      have := h.lineSize
      simpa [Raw.clear,Raw.setLine] using this
    line := ⟨y,?_⟩
    len := rfl
    printable := fun _ hb => by cases hb }
  change r.line.set 0 0 = _
  rw [hy]
  rfl

theorem Shows.argv : r.argv = parseArgs ttyArgs t.line := by
  obtain ⟨z,hz⟩ := h.line
  have hargs := (parseArgsAt_eq ttyArgs [] (z:=0::z) h.nul fun b hb => by cases hb; rfl).2
  rw [Raw.argv,hz]
  exact hargs

theorem Shows.turnTo (turn : Option Turn) :
    Shows (r.turnTo turn) (takeTurn t turn) := by
  rcases turn with _ | _ | _ | _
  · exact h
  · exact { h with mode := rfl, escape := rfl }
  · exact { h with mode := rfl, htopArmed := rfl, htopMs := rfl }
  · exact { h with closed := rfl }

variable (sv) in
theorem Shows.exec (w : ω) : Beside Shows (r.exec sv w) (execLine (shell sv) t w) := by
  rw [Raw.exec,execLine,h.argv]
  cases parseArgs ttyArgs t.line with
  | nil => exact ⟨h.clear,rfl⟩
  | cons a argv => exact ⟨(h.clear.turnTo _).putsAll _,rfl⟩

theorem Shows.prompt : Shows r.prompt (ttyPrompt t) := h.puts _

theorem Shows.leave : Shows r.leave (leaveMode t) := by
  have hmode : Shows { r with mode := .line, escape := .normal }
      { t with mode := .line, escape := .normal } := { h with mode := rfl, escape := rfl }
  exact (hmode.clear.puts _).prompt

theorem Shows.setEscape (e : Escape) :
    Shows { r with escape := e } { t with escape := e } := { h with escape := rfl }

theorem Shows.line_ne (hpos : 0 < r.len) : t.line ≠ [] := by
  intro hnil
  rw [h.len,hnil] at hpos
  exact absurd hpos (by decide)

theorem Shows.backspace (hpos : 0 < r.len) :
    Shows ({ r with len := r.len-1 }.setLine (r.len-1) 0)
      { t with line := t.line.dropLast, line_fits := hfits } := by
  obtain ⟨z,hz⟩ := h.line
  have hlen := h.len
  obtain ⟨l,b,hl⟩ : ∃ l b, t.line = l++[b] := by
    rcases eq_nil_or_concat t.line with hnil | ⟨l,b,hl⟩
    · exact absurd hnil (h.line_ne hpos)
    · exact ⟨l,b,by rw [hl,concat_eq_append]⟩
  have hdrop : t.line.dropLast = l := by rw [hl,dropLast_concat]
  have hindex : (r.len-1).toNat = l.length := by
    rw [hlen,hl,length_append,length_singleton]
    omega
  refine { h with
    lineSize := ?_
    line := ⟨0::z,?_⟩
    len := ?_
    printable := fun b hb => h.printable b (mem_of_mem_dropLast hb) }
  · simpa [Raw.setLine] using h.lineSize
  · change r.line.set (r.len-1).toNat 0 = t.line.dropLast++_
    rw [hindex,hz,hl,dropLast_concat]
    simp
  · change r.len-1 = (t.line.dropLast.length : ℤ)
    rw [hlen,hdrop,hl,length_append,length_singleton]
    omega

theorem Shows.typed (hbyte : 0x20 ≤ byte ∧ byte ≤ 0x7e) :
    Shows ({ r.setLine r.len byte with len := r.len+1 }.setLine (r.len+1) 0)
      { t with line := t.line++[byte], line_fits := hfits } := by
  obtain ⟨z,hz⟩ := h.line
  have hsize := h.lineSize
  have hlen := h.len
  obtain ⟨c,z',rfl⟩ : ∃ c z', z = c::z' := by
    cases z with
    | nil =>
      rw [hz] at hsize
      simp only [length_append,length_cons,length_nil] at hsize hfits
      omega
    | cons c z' => exact ⟨c,z',rfl⟩
  have hfirst : r.len.toNat = t.line.length := by omega
  have hsecond : (r.len+1).toNat = t.line.length+1 := by omega
  refine { h with
    lineSize := ?_
    line := ⟨z',?_⟩
    len := ?_
    printable := fun b hb => ?_ }
  · simpa [Raw.setLine] using hsize
  · change (r.line.set r.len.toNat byte).set (r.len+1).toNat 0 = t.line++[byte]++0::z'
    rw [hfirst,hsecond,hz]
    simp
  · change r.len+1 = ((t.line++[byte]).length : ℤ)
    rw [hlen,length_append,length_singleton]
    omega
  · rcases mem_append.mp hb with hb | hb
    · exact h.printable b hb
    · rw [mem_singleton.mp hb]
      exact hbyte

theorem Shows.lineByte (w : ω) (byte : UInt8) :
    Beside Shows (r.lineByte sv w byte) (lineByte (shell sv) t w byte) := by
  rw [Raw.lineByte,TtyService.lineByte]
  refine Beside.ite (fun _ => ⟨(h.clear.puts _).prompt,rfl⟩) fun _ => ?_
  refine Beside.ite (fun _ => ?_) fun _ => ?_
  · obtain ⟨hexec,hworld⟩ := Shows.exec sv (h.puts (text "\n")) w
    dsimp only
    rw [hexec.mode,hexec.closed]
    refine ⟨?_,hworld⟩
    split_ifs
    · exact hexec.prompt
    · exact hexec
  refine Beside.ite (fun _ => ?_) fun _ => ?_
  · by_cases hpos : 0 < r.len
    · rw [if_pos hpos,if_neg (h.line_ne hpos)]
      exact ⟨(h.backspace hpos).puts _,rfl⟩
    · have hnil : t.line = [] := by
        have hlen := h.len
        exact eq_nil_of_length_eq_zero (by omega)
      rw [if_neg hpos,if_pos hnil]
      exact ⟨h,rfl⟩
  refine Beside.ite (fun _ => ⟨h,rfl⟩) fun hodd => ?_
  have hlen := h.len
  by_cases hfull : ttyLine ≤ t.line.length+1
  · rw [if_pos (by omega),dif_pos hfull]
    exact ⟨h,rfl⟩
  · rw [if_neg (by omega),dif_neg hfull]
    simp only [not_or,UInt8.not_lt] at hodd
    exact ⟨(h.typed hodd).puts _,rfl⟩

theorem Shows.attachKey (w : ω) (key : ℕ) :
    Beside Shows (r.attachKey sv w key) (attachKey (shell sv) t w key) := by
  dsimp only [Raw.attachKey,TtyService.attachKey]
  exact ⟨h.puts _,rfl⟩

theorem Shows.attachByte (w : ω) (byte : UInt8) :
    Beside Shows (r.attachByte sv w byte) (attachByte (shell sv) t w byte) := by
  rw [Raw.attachByte,TtyService.attachByte,h.escape]
  refine Beside.ite (fun _ => ⟨h.leave,rfl⟩) fun _ => ?_
  cases t.escape with
  | esc =>
    dsimp only
    split_ifs
    · exact ⟨h.setEscape .csi,rfl⟩
    · exact (h.setEscape .normal).attachKey w keyEscape
  | csi =>
    dsimp only
    split_ifs
    · exact (h.setEscape .normal).attachKey w keyUp
    · exact (h.setEscape .normal).attachKey w keyDown
    · exact (h.setEscape .normal).attachKey w keyRight
    · exact (h.setEscape .normal).attachKey w keyLeft
    · exact ⟨h.setEscape .normal,rfl⟩
  | normal =>
    dsimp only
    split_ifs
    · exact ⟨h.setEscape .esc,rfl⟩
    cases keyFromByte byte with
    | some key => exact h.attachKey w key
    | none => exact ⟨h,rfl⟩

variable (sv) in
/-- Byte for byte it does what the service on lists does. -/
theorem Shows.input (w : ω) (byte : UInt8) :
    Beside Shows (r.input sv w byte) (inputByte (shell sv) (t,w) byte) := by
  rw [Raw.input,inputByte,h.mode,h.escape]
  cases t.mode with
  | htop =>
    dsimp only
    split_ifs
    · exact ⟨h.leave,rfl⟩
    · exact ⟨h,rfl⟩
  | attach => exact h.attachByte w byte
  | line =>
    cases t.escape with
    | esc => exact ⟨{ h with mode := rfl, escape := rfl },rfl⟩
    | csi => exact ⟨{ h with mode := rfl, escape := rfl },rfl⟩
    | normal =>
      dsimp only
      split_ifs
      · exact ⟨{ h with mode := rfl, escape := rfl },rfl⟩
      · exact h.lineByte w byte

variable (sv) in
theorem Shows.poll (w : ω) (nowMs : UInt32) :
    Shows (r.poll sv w nowMs) (ttyServicePoll (shell sv) t w nowMs) := by
  rw [Raw.poll,ttyServicePoll,h.mode,h.htopArmed,h.htopMs]
  split_ifs
  · exact h
  · exact { h with mode := rfl, htopArmed := rfl, htopMs := rfl }
  · exact h
  · refine Shows.putsAll ?_ (taskTable sv w)
    exact { h with mode := rfl, htopArmed := rfl, htopMs := rfl }

theorem Shows.opened : Shows r.opened (ttyServiceOpen t) := by
  have hline : Shows { r with closed := false, mode := .line }
      { t with closed := false, mode := .line } := { h with closed := rfl, mode := rfl }
  exact hline.prompt

theorem Shows.read (cap : ℕ) :
    (r.read cap).1 = (ttyServiceRead t cap).1 ∧
      Shows (r.read cap).2 (ttyServiceRead t cap).2 := by
  obtain ⟨z,hz⟩ := h.out
  have hmin : ∀ n, (if r.outLen < cap then r.outLen else cap) = n →
      n ≤ t.out.length ∧ t.out.take n = t.out.take cap ∧ t.out.drop n = t.out.drop cap := by
    rintro n rfl
    rw [h.outLen]
    split_ifs with hcap
    · rw [take_of_length_le hcap.le,drop_eq_nil_of_le hcap.le]
      exact ⟨le_rfl,take_length,drop_length⟩
    · exact ⟨by omega,rfl,rfl⟩
  rw [Raw.read]
  generalize hn : (if r.outLen < cap then r.outLen else cap) = n
  obtain ⟨hle,htake,hdrop⟩ := hmin n hn
  have hpart : (r.out.drop n).take (r.outLen-n) = t.out.drop cap := by
    rw [hz,drop_append_of_le_length hle,h.outLen,←length_drop,take_left,hdrop]
  refine ⟨?_,{ h with outSize := ?_, out := ⟨r.out.drop (t.out.drop cap).length,?_⟩, outLen := ?_ }⟩
  · change r.out.take n = t.out.take cap
    rw [hz,take_append_of_le_length hle,htake]
  · change (memcpyAt r.out 0 ((r.out.drop n).take (r.outLen-n))).length = ttyOut
    have hsize := h.outSize
    have hlen := congrArg length hz
    rw [length_append] at hlen
    rw [hpart,memcpyAt]
    simp only [length_append,length_drop,length_take]
    omega
  · change memcpyAt r.out 0 ((r.out.drop n).take (r.outLen-n)) = _
    rw [hpart,memcpyAt,take_zero,nil_append,zero_add]
    rfl
  · change r.outLen-n = (t.out.drop cap).length
    rw [h.outLen,←hdrop,length_drop]

end

end

end TinyDeviceOs.TtyService
