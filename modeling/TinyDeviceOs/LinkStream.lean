import TinyDeviceOs.LinkFrame
import TinyDeviceOs.IncrementalScan

/-! The receive stream of `link/link_frame.c`. A push first appends to a 251-byte window, dropping
the oldest bytes, and only then extracts frames; the window is transparent exactly while nothing is
dropped. -/
namespace TinyDeviceOs.LinkStream

open LittleEndian LinkFrame IncrementalScan List

/-- The first `len` bytes of its buffer. -/
structure Stream where
  buf : Bytes
  fits : buf.length ≤ linkMaxFrame

def Stream.empty : Stream := ⟨[],by simp⟩

def pushByte (buf : Bytes) (b : UInt8) : Bytes :=
  (if linkMaxFrame ≤ buf.length then buf.tail else buf)++[b]

theorem pushByte_length_le (h : buf.length ≤ linkMaxFrame) : (pushByte buf b).length ≤
    linkMaxFrame := by
  unfold pushByte
  split_ifs
  · simp only [length_append,length_tail,length_singleton]
    have hp : 0 < linkMaxFrame := by decide
    omega
  · simp only [length_append,length_singleton]; omega

/-- The first loop of `link_stream_push`. -/
def pushBytes (buf data : Bytes) : Bytes := data.foldl pushByte buf

theorem pushBytes_length_le (h : buf.length ≤ linkMaxFrame) : (pushBytes buf data).length ≤
    linkMaxFrame := by
  unfold pushBytes
  induction data generalizing buf with
  | nil => exact h
  | cons b bs ih => exact ih (pushByte_length_le h)

theorem pushBytes_eq_append (h : buf.length+data.length ≤ linkMaxFrame) : pushBytes buf data =
    buf++data := by
  unfold pushBytes
  induction data generalizing buf with
  | nil => simp
  | cons b bs ih =>
    simp only [length_cons] at h
    have hb : pushByte buf b = buf++[b] := by
      rw [pushByte,if_neg (by omega)]
    rw [foldl_cons,hb,ih (by simp only [length_append,length_singleton]; omega)]
    simp

/-- Drop bytes up to the magic, but never the last byte. -/
def seekMagic : Bytes → Bytes
  | b₀::b₁::rest =>
    if b₀ = magicLo ∧ b₁ = magicHi then b₀::b₁::rest else seekMagic (b₁::rest)
  | buf => buf

theorem seekMagic_length_le (buf : Bytes) : (seekMagic buf).length ≤ buf.length := by
  induction buf with
  | nil => rfl
  | cons b₀ buf ih =>
    cases buf with
    | nil => rfl
    | cons b₁ rest =>
      rw [seekMagic]
      split_ifs with h
      · rfl
      · exact le_trans ih (Nat.le_succ _)

def headerLength (buf : Bytes) : ℕ := (u16 (buf.getD 7 0) (buf.getD 8 0)).toNat

variable {σ : Type}

/-- The flags are `true` for `0` and `false` for `-1`, which keeps the frame. -/
def drain (onFrame : σ → Bytes → σ × Bool) (buf : Bytes) (st : σ) : Bytes × σ × Bool :=
  let cur := seekMagic buf
  if cur.length < linkHeaderLen then (cur,st,true)
  else if linkMaxPayload < headerLength cur then drain onFrame cur.tail st
  else if cur.length < linkHeaderLen+headerLength cur+2 then (cur,st,true)
  else match _h : linkFrameDecode (cur.take (linkHeaderLen+headerLength cur+2)) with
    | none => drain onFrame cur.tail st
    | some (used,_) =>
      if (onFrame st (cur.take used)).2 then
        drain onFrame (cur.drop used) (onFrame st (cur.take used)).1
      else (cur,(onFrame st (cur.take used)).1,false)
termination_by buf.length
decreasing_by
  all_goals
    have hs := seekMagic_length_le buf
    have hc : cur.length = (seekMagic buf).length := rfl
    simp only [linkHeaderLen] at *
    simp only [length_tail,length_drop]
  · omega
  · omega
  · have hu := (linkFrameDecode_used _h).1
    omega

/-- What the extraction loop does with the bytes it holds. -/
def frameVerdict (xs : Bytes) : Verdict :=
  if xs.length < 2 then .wait
  else if xs.getD 0 0 ≠ magicLo ∨ xs.getD 1 0 ≠ magicHi then .skip
  else if xs.length < linkHeaderLen then .wait
  else if linkMaxPayload < headerLength xs then .skip
  else if xs.length < linkHeaderLen+headerLength xs+2 then .wait
  else if (linkFrameDecode (xs.take (linkHeaderLen+headerLength xs+2))).isNone then .skip
  else .take (linkHeaderLen+headerLength xs+2)

theorem frameVerdict_take (h : frameVerdict xs = .take n) :
    n = linkHeaderLen+headerLength xs+2 ∧ n ≤ xs.length ∧ n ≤ linkMaxFrame ∧
      (linkFrameDecode (xs.take n)).isSome := by
  simp only [frameVerdict] at h
  split_ifs at h with h1 h2 h3 h4 h5 h6
  simp only [Verdict.take.injEq] at h
  subst h
  refine ⟨rfl,by omega,by unfold linkMaxFrame; omega,?_⟩
  simpa [Option.isSome_iff_ne_none] using h6

theorem frameVerdict_append (xs ys : Bytes) (h : frameVerdict xs ≠ .wait) :
    frameVerdict (xs++ys) = frameVerdict xs := by
  have hat {i : ℕ} (hi : i < xs.length) : (xs++ys).getD i 0 = xs.getD i 0 :=
    getD_append _ _ _ _ hi
  have hlen : (xs++ys).length = xs.length+ys.length := length_append
  by_cases h2 : xs.length < 2
  · exact absurd (by rw [frameVerdict,if_pos h2]) h
  have e0 := hat (show 0 < xs.length by omega)
  have e1 := hat (show 1 < xs.length by omega)
  rw [frameVerdict,if_neg h2] at h
  rw [frameVerdict,frameVerdict,if_neg h2,if_neg (by omega),e0,e1]
  by_cases hm : xs.getD 0 0 ≠ magicLo ∨ xs.getD 1 0 ≠ magicHi
  · rw [if_pos hm,if_pos hm]
  rw [if_neg hm] at h ⊢
  rw [if_neg hm]
  by_cases h9 : xs.length < linkHeaderLen
  · exact absurd (by rw [if_pos h9]) h
  have e7 : headerLength (xs++ys) = headerLength xs := by
    simp only [linkHeaderLen] at h9
    rw [headerLength,hat (by omega),hat (by omega),headerLength]
  rw [if_neg h9] at h ⊢
  rw [if_neg (by omega),e7]
  by_cases hp : linkMaxPayload < headerLength xs
  · rw [if_pos hp,if_pos hp]
  rw [if_neg hp] at h ⊢
  rw [if_neg hp]
  by_cases ht : xs.length < linkHeaderLen+headerLength xs+2
  · exact absurd (by rw [if_pos ht]) h
  rw [if_neg ht,if_neg (by omega),take_append_of_le_length (by omega)]

theorem frameVerdict_of_decode (h : linkFrameDecode xs = some (xs.length,f)) : frameVerdict xs =
    .take xs.length := by
  obtain ⟨h9,hmagic,hmax,-,-⟩ := (linkFrameDecode_isSome xs).mp (by rw [h]; rfl)
  obtain ⟨hlen,hf⟩ := linkFrameDecode_used h
  have hl : linkHeaderLen+headerLength xs+2 = xs.length := by rw [headerLength,←hf,←hlen]
  rw [frameVerdict,if_neg (by omega),if_neg (by tauto),if_neg (by omega),
    if_neg (by rw [headerLength]; omega),if_neg (by omega),hl,take_length,h]
  rfl

/-- Noise, bad lengths and bad checksums are skipped byte by byte. -/
def frameScanner : Scanner UInt8 where
  verdict := frameVerdict
  nil_wait := by simp [frameVerdict]
  take_pos h := by
    have hn := (frameVerdict_take h).1
    omega
  take_le h := (frameVerdict_take h).2.1
  stable := frameVerdict_append

theorem waiting_length_lt (h : frameVerdict xs = .wait) : xs.length < linkMaxFrame := by
  simp only [frameVerdict] at h
  unfold linkMaxFrame
  split_ifs at h <;> simp only [linkHeaderLen] at * <;> omega

theorem seekMagic_of_magic (h0 : xs.getD 0 0 = magicLo) (h1 : xs.getD 1 0 = magicHi) :
    seekMagic xs = xs := by
  match xs with
  | [] => rfl
  | [b] => rfl
  | b₀::b₁::rest =>
    simp only [getD_cons_zero,getD_cons_succ] at h0 h1
    simp [seekMagic,h0,h1]

theorem seekMagic_of_noise (hl : 2 ≤ xs.length)
    (h : xs.getD 0 0 ≠ magicLo ∨ xs.getD 1 0 ≠ magicHi) : seekMagic xs = seekMagic xs.tail := by
  match xs with
  | [] => simp at hl
  | [b] => simp at hl
  | b₀::b₁::rest =>
    simp only [getD_cons_zero,getD_cons_succ] at h
    rw [seekMagic,if_neg (by tauto),tail_cons]

theorem seekMagic_wait (h : frameVerdict buf = .wait) :
    seekMagic buf = buf ∧ (buf.length < linkHeaderLen ∨ ¬buf.length < linkHeaderLen ∧
      ¬linkMaxPayload < headerLength buf ∧ buf.length < linkHeaderLen+headerLength buf+2) := by
  simp only [frameVerdict] at h
  split_ifs at h with h2 hm h9 hp ht hd
  · refine ⟨?_,.inl (by unfold linkHeaderLen; omega)⟩
    match buf with
    | [] => rfl
    | [b] => rfl
    | b₀::b₁::rest => simp at h2
  · push Not at hm
    exact ⟨seekMagic_of_magic hm.1 hm.2,.inl h9⟩
  · push Not at hm
    exact ⟨seekMagic_of_magic hm.1 hm.2,.inr ⟨h9,hp,ht⟩⟩

theorem seekMagic_skip (h : frameVerdict buf = .skip) :
    seekMagic buf = seekMagic buf.tail ∨ seekMagic buf = buf ∧ ¬buf.length < linkHeaderLen ∧
      (linkMaxPayload < headerLength buf ∨ ¬linkMaxPayload < headerLength buf ∧
        ¬buf.length < linkHeaderLen+headerLength buf+2 ∧
        linkFrameDecode (buf.take (linkHeaderLen+headerLength buf+2)) = none) := by
  simp only [frameVerdict] at h
  split_ifs at h with h2 hm h9 hp ht hd
  · exact .inl (seekMagic_of_noise (by omega) hm)
  · push Not at hm
    exact .inr ⟨seekMagic_of_magic hm.1 hm.2,h9,.inl hp⟩
  · push Not at hm
    exact .inr ⟨seekMagic_of_magic hm.1 hm.2,h9,.inr ⟨hp,ht,by simpa using hd⟩⟩

theorem seekMagic_take (h : frameVerdict buf = .take n) :
    seekMagic buf = buf ∧ ¬buf.length < linkHeaderLen ∧ ¬linkMaxPayload < headerLength buf ∧
      ¬buf.length < linkHeaderLen+headerLength buf+2 ∧ n = linkHeaderLen+headerLength buf+2 ∧
      ∃ f, linkFrameDecode (buf.take n) = some (n,f) := by
  obtain ⟨hn,-,-,hsome⟩ := frameVerdict_take h
  simp only [frameVerdict] at h
  split_ifs at h with h2 hm h9 hp ht hd
  push Not at hm
  refine ⟨seekMagic_of_magic hm.1 hm.2,h9,hp,ht,hn,?_⟩
  obtain ⟨⟨used,f⟩,hdec⟩ := Option.isSome_iff_exists.mp hsome
  obtain ⟨hu,hf⟩ := linkFrameDecode_used hdec
  have hat {i : ℕ} (hi : i < n) : (buf.take n).getD i 0 = buf.getD i 0 := by
    rw [getD_eq_getElem?_getD,getD_eq_getElem?_getD,getElem?_take_of_lt hi]
  simp only [linkHeaderLen] at *
  rw [hat (by omega),hat (by omega)] at hf
  have hused : used = n := by rw [hn,hu,hf,headerLength]
  exact ⟨f,by rw [hdec,hused]⟩

variable (onFrame : σ → Bytes → σ × Bool)

theorem drain_congr (h : seekMagic xs = seekMagic ys) : drain onFrame xs st = drain onFrame ys
    st := by
  conv_lhs => rw [drain]
  conv_rhs => rw [drain]
  generalize seekMagic xs = cur at h
  subst h
  rfl

theorem drain_wait (st : σ) (h : frameVerdict buf = .wait) :
    drain onFrame buf st = (buf,st,true) := by
  obtain ⟨hs,h9 | ⟨h9,hp,ht⟩⟩ := seekMagic_wait h
  · rw [drain,hs]
    simp [h9]
  · rw [drain,hs]
    simp [h9,hp,ht]

theorem drain_skip (st : σ) (h : frameVerdict buf = .skip) :
    drain onFrame buf st = drain onFrame buf.tail st := by
  obtain hs | ⟨hs,h9,hp | ⟨hp,ht,hd⟩⟩ := seekMagic_skip h
  · exact drain_congr onFrame hs
  · rw [drain,hs]
    simp [h9,hp]
  · rw [drain,hs]
    simp only [h9,hp,ht,if_false]
    split
    · rfl
    · rename_i hsome
      simp [hsome] at hd

theorem drain_take (st : σ) (h : frameVerdict buf = .take n) :
    drain onFrame buf st =
      if (onFrame st (buf.take n)).2 then drain onFrame (buf.drop n) (onFrame st (buf.take n)).1
      else (buf,(onFrame st (buf.take n)).1,false) := by
  obtain ⟨hs,h9,hp,ht,hn,f,hf⟩ := seekMagic_take h
  rw [drain,hs]
  simp only [h9,hp,ht,if_false]
  split
  · rename_i hnone
    rw [← hn,hf] at hnone
    simp at hnone
  · rename_i used g hdec
    rw [← hn,hf] at hdec
    simp only [Option.some.injEq,Prod.mk.injEq] at hdec
    simp only [← hdec.1]

theorem drain_length_le (buf : Bytes) (st : σ) : (drain onFrame buf st).1.length ≤ buf.length := by
  induction buf using scan_induction (S:=frameScanner) generalizing st with
  | wait buf h => rw [drain_wait onFrame st h]
  | skip buf h ih =>
    rw [drain_skip onFrame st h]
    exact (ih st).trans (by simp)
  | take buf n h ih =>
    rw [drain_take onFrame st h]
    split_ifs
    · exact (ih _).trans (by simp)
    · exact le_refl _

/-- The stream and callback state, and whether it returned `0`. -/
def linkStreamPush (s : Stream) (data : Bytes) (st : σ) : Stream × σ × Bool :=
  (⟨(drain onFrame (pushBytes s.buf data) st).1,
    (drain_length_le onFrame _ st).trans (pushBytes_length_le s.fits)⟩,
    (drain onFrame (pushBytes s.buf data) st).2)

def deliveries (buf : Bytes) (st : σ) : List (σ × Bytes) :=
  match _h : frameVerdict buf with
  | .wait => []
  | .skip => deliveries buf.tail st
  | .take n =>
    (st,buf.take n)::if (onFrame st (buf.take n)).2 then
      deliveries (buf.drop n) (onFrame st (buf.take n)).1 else []
termination_by buf.length
decreasing_by
  all_goals
    have hp := length_pos_iff.mpr (frameScanner.ne_nil buf (by simp [frameScanner,_h]))
  · rw [length_tail]
    omega
  · have hn : 0 < n := frameScanner.take_pos _h
    rw [length_drop]
    omega

variable {onFrame}

/-- Each from the state that the one before left, up to a failure. -/
inductive Trace (onFrame : σ → Bytes → σ × Bool) : σ → List (σ × Bytes) → σ → Bool → Prop
  | done (st : σ) : Trace onFrame st [] st true
  | fail {st : σ} {raw : Bytes} (h : (onFrame st raw).2 = false) :
    Trace onFrame st [(st,raw)] (onFrame st raw).1 false
  | next {st : σ} {raw : Bytes} {ds : List (σ × Bytes)} {st' : σ} {ok : Bool}
    (h : (onFrame st raw).2 = true) (t : Trace onFrame (onFrame st raw).1 ds st' ok) :
    Trace onFrame st ((st,raw)::ds) st' ok

theorem deliveries_wait (st : σ) (h : frameVerdict buf = .wait) :
    deliveries onFrame buf st = [] := by
  rw [deliveries]; split <;> simp_all

theorem deliveries_skip (h : frameVerdict buf = .skip) : deliveries onFrame buf st = deliveries
    onFrame buf.tail st := by
  rw [deliveries]; split <;> simp_all

theorem deliveries_take (st : σ) (h : frameVerdict buf = .take n) :
    deliveries onFrame buf st = (st,buf.take n)::if (onFrame st (buf.take n)).2 then
      deliveries onFrame (buf.drop n) (onFrame st (buf.take n)).1 else [] := by
  rw [deliveries]; split <;> simp_all

theorem drain_trace (onFrame : σ → Bytes → σ × Bool) (buf : Bytes) (st : σ) :
    Trace onFrame st (deliveries onFrame buf st) (drain onFrame buf st).2.1
      (drain onFrame buf st).2.2 := by
  induction buf using scan_induction (S:=frameScanner) generalizing st with
  | wait buf h =>
    rw [deliveries_wait st h,drain_wait onFrame st h]
    exact .done st
  | skip buf h ih =>
    rw [deliveries_skip h,drain_skip onFrame st h]
    exact ih st
  | take buf n h ih =>
    rw [deliveries_take st h,drain_take onFrame st h]
    cases hok : (onFrame st (buf.take n)).2 with
    | false => simpa using Trace.fail hok
    | true => simpa using Trace.next hok (ih _)

/-- What each step preserves, the push preserves. -/
theorem Trace.preserves {P : σ → Prop} {st st' : σ} {ds : List (σ × Bytes)} (t : Trace onFrame st ds st' ok)
    (step : ∀ d ∈ ds, P d.1 → P (onFrame d.1 d.2).1) (h : P st) : P st' := by
  induction t with
  | done st => exact h
  | fail _ => exact step _ mem_cons_self h
  | next _ _ ih =>
    rw [forall_mem_cons] at step
    exact ih step.2 (step.1 h)

theorem Trace.all_ok (t : Trace onFrame st ds st' ok) (h : ok = true) :
    ∀ d ∈ ds, (onFrame d.1 d.2).2 = true := by
  induction t with
  | done st => simp
  | fail _ => simp at h
  | next hok _ ih => exact forall_mem_cons.mpr ⟨hok,ih h⟩

theorem drain_fail (h : (drain onFrame buf st).2.2 = false) : ∃ init last n, deliveries onFrame
    buf st = init++[last] ∧ Trace onFrame st init last.1 true ∧ (onFrame last.1 last.2).2 =
    false ∧ (drain onFrame buf st).2.1 = (onFrame last.1 last.2).1 ∧ frameVerdict (drain onFrame
    buf st).1 = .take n ∧ (drain onFrame buf st).1.take n = last.2 := by
  induction buf using scan_induction (S:=frameScanner) generalizing st with
  | wait buf hv => simp [drain_wait onFrame st hv] at h
  | skip buf hv ih =>
    rw [drain_skip onFrame st hv] at h ⊢
    rw [deliveries_skip hv]
    exact ih h
  | take buf n hv ih =>
    rw [drain_take onFrame st hv] at h ⊢
    rw [deliveries_take st hv]
    cases hok : (onFrame st (buf.take n)).2 with
    | false =>
      simp only [Bool.false_eq_true,if_false]
      exact ⟨[],(st,buf.take n),n,rfl,.done st,hok,rfl,hv,rfl⟩
    | true =>
      simp only [hok,if_true] at h ⊢
      obtain ⟨init,last,m,hds,ht,hrest⟩ := ih h
      exact ⟨(st,buf.take n)::init,last,m,by rw [hds,cons_append],.next hok ht,hrest⟩

def collect (acc : List Bytes) (raw : Bytes) : List Bytes × Bool := (acc++[raw],true)

theorem drain_collect : drain collect buf acc = ((scan frameScanner buf).2,acc++(scan
    frameScanner buf).1,true) := by
  induction buf using scan_induction (S:=frameScanner) generalizing acc with
  | wait buf h => simp [drain_wait collect acc h,scan_wait h]
  | skip buf h ih => rw [drain_skip collect acc h,scan_skip h,ih]
  | take buf n h ih =>
    rw [drain_take collect acc h,scan_take h]
    simp [collect,ih]

def receive (st : Stream × List Bytes) (piece : Bytes) : Stream × List Bytes :=
  ((linkStreamPush collect st.1 piece st.2).1,(linkStreamPush collect st.1 piece st.2).2.1)

def received (pieces : List Bytes) : List Bytes := (pieces.foldl receive (Stream.empty,[])).2

/-- No push finds more bytes than the window has room for. -/
def Fits : Stream → List Bytes → Prop
  | _, [] => True
  | s, d::ds => s.buf.length+d.length ≤ linkMaxFrame ∧ Fits (receive (s,[]) d).1 ds

instance fitsDecidable : (s : Stream) → (ds : List Bytes) → Decidable (Fits s ds)
  | _, [] => isTrue trivial
  | s, d::ds =>
    have := fitsDecidable (receive (s,[]) d).1 ds
    inferInstanceAs (Decidable (_ ∧ _))

theorem receive_buf (h : s.buf.length+d.length ≤ linkMaxFrame) : (receive (s,acc) d).1.buf =
    (scan frameScanner (s.buf++d)).2 ∧ (receive (s,acc) d).2 = acc++(scan frameScanner
    (s.buf++d)).1 := by
  simp [receive,linkStreamPush,drain_collect,pushBytes_eq_append h]

theorem receive_stream (s : Stream) (d : Bytes) (acc : List Bytes) :
    (receive (s,acc) d).1 = (receive (s,[]) d).1 := by
  simp [receive,linkStreamPush,drain_collect]

theorem foldl_receive (acc : List Bytes)
    (hw : frameVerdict s.buf = .wait) (hf : Fits s pieces) :
    (pieces.foldl receive (s,acc)).2 = acc++(scan frameScanner (s.buf++pieces.flatten)).1 := by
  induction pieces generalizing s acc with
  | nil => simp [scan_wait (S:=frameScanner) hw]
  | cons d ds ih =>
    obtain ⟨hd,hds⟩ := hf
    obtain ⟨hbuf,hacc⟩ := receive_buf hd
    have hnext : frameVerdict (receive (s,acc) d).1.buf = .wait := by
      rw [hbuf]
      exact verdict_rest frameScanner _
    rw [← receive_stream s d acc] at hds
    have h := ih (receive (s,acc) d).2 hnext hds
    rw [foldl_cons,h,hbuf,hacc,flatten_cons,← append_assoc,
      scan_append frameScanner (s.buf++d)]
    simp

/-- As long as every push fits the window, the frames are those of one scan of the stream. -/
theorem received_eq_scan (h : Fits Stream.empty pieces) :
    received pieces = (scan frameScanner pieces.flatten).1 := by
  simpa [received,Stream.empty] using
    foldl_receive (s:=Stream.empty) [] (by simp [Stream.empty,frameVerdict]) h

theorem fits_bytes (hw : frameVerdict s.buf = .wait) (bs : Bytes) :
    Fits s (bs.map ([·])) := by
  induction bs generalizing s with
  | nil => trivial
  | cons b bs ih =>
    have hd : s.buf.length+[b].length ≤ linkMaxFrame := waiting_length_lt hw
    refine ⟨hd,ih ?_⟩
    rw [(receive_buf hd).1]
    exact verdict_rest frameScanner _

/-- Two ways of cutting the same bytes deliver the same frames when no push overflows. -/
theorem received_chunk_independent {p q : List Bytes} (hs : p.flatten = q.flatten)
    (hp : Fits Stream.empty p) (hq : Fits Stream.empty q) : received p = received q := by
  rw [received_eq_scan hp,received_eq_scan hq,hs]

def emptyEvent : Bytes :=
  (linkFrameEncode (Frame.ofBody linkVersion 0 chEvent 0 []) linkMaxFrame).getD []

/-- Pushed at once, twenty-three back-to-back frames overflow the window and the first is lost. -/
theorem received_burst_loses_frame :
    (replicate 23 emptyEvent).flatten = [(replicate 23 emptyEvent).flatten].flatten ∧
      received (replicate 23 emptyEvent) ≠
        received [(replicate 23 emptyEvent).flatten] := by
  refine ⟨by simp,fun h => ?_⟩
  have hone : (received (replicate 23 emptyEvent)).length = 23 := by decide +kernel
  have hall : (received [(replicate 23 emptyEvent).flatten]).length = 22 := by decide +kernel
  rw [h,hall] at hone
  omega

/-- Two frames pushed together and pushed one after the other. -/
theorem received_two_frames :
    received [emptyEvent++emptyEvent] = received [emptyEvent,emptyEvent] :=
  received_chunk_independent (by simp) (by decide +kernel) (by decide +kernel)

end TinyDeviceOs.LinkStream
