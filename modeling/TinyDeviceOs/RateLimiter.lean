import TinyDeviceOs.Runs
import Mathlib.Tactic

/-! The rate limiter of `web_server.py`, with the times of the calls that it has allowed. Times are
rationals; of floats within a factor of two of each other the difference is exact. -/
namespace TinyDeviceOs.RateLimiter

open Function List Runs

variable {α : Type} [DecidableEq α] (m : ℕ) (w : ℚ)

/-- A client's new list, and the answer. -/
def isAllowed (requests : List ℚ) (now : ℚ) : List ℚ × Bool :=
  let kept := requests.filter (now-· < w)
  if m ≤ kept.length then (kept,false) else (kept++[now],true)

structure Client where
  requests : List ℚ
  log : List ℚ

def Client.call (c : Client) (now : ℚ) : Client :=
  let r := isAllowed m w c.requests now
  ⟨r.1,if r.2 then c.log++[now] else c.log⟩

def called (ts : List ℚ) : Client := after (Client.call m w) ⟨[],[]⟩ ts

def served (calls : List (α × ℚ)) : α → Client :=
  after (fun s c => update s c.1 ((s c.1).call m w c.2)) (fun _ => ⟨[],[]⟩) calls

def timesOf (calls : List (α × ℚ)) (ip : α) : List ℚ := (calls.filter (·.1 = ip)).map (·.2)

variable {m w} {c : Client} {now t : ℚ} {ip : α} {calls : List (α × ℚ)} {ts : List ℚ}

/-- Every client is served by itself. -/
theorem served_eq : served m w calls ip = called m w (timesOf calls ip) := by
  induction calls using reverseRecOn with
  | nil => rfl
  | append_singleton calls c ih =>
    rw [served,after_append,timesOf,filter_append,map_append,called,after_append]
    rw [served] at ih
    by_cases hip : c.1 = ip
    · subst hip
      simp [ih,timesOf,called]
    · simp [ih,timesOf,called,hip,Ne.symm hip]

/-- What the list has lost of the history counts no more. -/
def Tracks (w : ℚ) (c : Client) (now : ℚ) : Prop :=
  (∀ ts ∈ c.log, ts ≤ now) ∧ c.requests.filter (now-· < w) = c.log.filter (now-· < w)

theorem filter_later (h : now ≤ t) (l : List ℚ) :
    (l.filter (now-· < w)).filter (t-· < w) = l.filter (t-· < w) := by
  rw [filter_filter]
  refine filter_congr fun ts _ => ?_
  have : t-ts < w → now-ts < w := fun hlt => by linarith
  simpa using this

theorem Tracks.later (h : Tracks w c now) (hle : now ≤ t) : Tracks w c t := by
  refine ⟨fun ts hts => (h.1 ts hts).trans hle,?_⟩
  rw [←filter_later hle,h.2,filter_later hle]

theorem Tracks.call (h : Tracks w c t) : Tracks w (c.call m w t) t := by
  unfold Client.call isAllowed
  dsimp only
  by_cases hfull : m ≤ (c.requests.filter (t-· < w)).length
  · rw [if_pos hfull]
    exact ⟨h.1,(filter_later le_rfl _).trans h.2⟩
  · rw [if_neg hfull]
    refine ⟨forall_mem_append.mpr ⟨h.1,by simp⟩,?_⟩
    exact (filter_append ..).trans ((congrArg (·++_) ((filter_later le_rfl _).trans h.2)).trans
      (filter_append ..).symm)

theorem tracks_called (hsorted : ts.Pairwise (· ≤ ·)) (h : ∀ t ∈ ts, t ≤ now) :
    Tracks w (called m w ts) now := by
  induction ts using reverseRecOn generalizing now with
  | nil => exact ⟨nofun,rfl⟩
  | append_singleton ts t ih =>
    rw [pairwise_append] at hsorted
    have hbefore := ih hsorted.1 fun u hu => hsorted.2.2 u hu t (mem_singleton_self t)
    rw [called,after_append]
    exact hbefore.call.later (h t (by simp))

theorem Tracks.isAllowed_iff (h : Tracks w c t) :
    (isAllowed m w c.requests t).2 = true ↔ c.log.countP (t-· < w) < m := by
  unfold isAllowed
  dsimp only
  rw [h.2,countP_eq_length_filter]
  split_ifs with hfull <;> simp <;> omega

/-- Of calls that are less than a window apart at most `m` are allowed. -/
theorem count_le (hsorted : ts.Pairwise (· ≤ ·)) (p : ℚ → Bool)
    (hp : ∀ t u, p t → p u → t-u < w) : (called m w ts).log.countP p ≤ m := by
  induction ts using reverseRecOn with
  | nil => exact Nat.zero_le m
  | append_singleton ts t ih =>
    rw [pairwise_append] at hsorted
    have ih := ih hsorted.1
    have htracks := tracks_called (m:=m) (w:=w) hsorted.1 fun u hu =>
      hsorted.2.2 u hu t (mem_singleton_self t)
    rw [called,after_append]
    change (Client.call m w (called m w ts) t).log.countP p ≤ m
    rw [Client.call]
    dsimp only
    split_ifs with hallowed
    · have hlt := htracks.isAllowed_iff.mp hallowed
      rw [countP_append,countP_singleton]
      split_ifs with ht
      · have := countP_mono_left (p:=p) (q:=(t-· < w)) (l:=(called m w ts).log)
          fun u _ hu => by simpa using hp t u ht hu
        omega
      · exact ih
    · exact ih

/-- A call is allowed exactly if fewer than `m` of the client's calls were allowed in the window
before it, so that no window has more, and whatever other clients do. -/
theorem rate_limited (m : ℕ) (w : ℚ) (calls : List (α × ℚ))
    (hsorted : calls.Pairwise (·.2 ≤ ·.2)) :
    AtEach (fun before (ip,t) => (isAllowed m w (served m w before ip).requests t).2 = true ↔
      (served m w before ip).log.countP (fun u => t-w < u ∧ u ≤ t) < m) calls ∧
    ∀ ip, (∀ a, (served m w calls ip).log.countP (fun u => a ≤ u ∧ u < a+w) ≤ m ∧
      (served m w calls ip).log.countP (fun u => a < u ∧ u ≤ a+w) ≤ m) ∧
      served m w calls ip = served m w (calls.filter (·.1 = ip)) ip := by
  have htimes (ip) : (timesOf calls ip).Pairwise (· ≤ ·) :=
    pairwise_map.mpr (hsorted.filter _)
  refine ⟨fun before ⟨ip,t⟩ rest hcalls => ?_,fun ip => ⟨fun a => ?_,?_⟩⟩
  · rw [hcalls,pairwise_append] at hsorted
    have htracks : Tracks w (called m w (timesOf before ip)) t := by
      refine tracks_called (pairwise_map.mpr (hsorted.1.filter _)) fun u hu => ?_
      obtain ⟨d,hd,rfl⟩ := mem_map.mp hu
      exact hsorted.2.2 d (mem_of_mem_filter hd) _ mem_cons_self
    dsimp only
    rw [served_eq,htracks.isAllowed_iff]
    refine iff_of_eq (congrArg (· < m) (countP_congr fun u hu => ?_))
    have := htracks.1 u hu
    simp [this,sub_lt_comm]
  · rw [served_eq]
    constructor
    all_goals
      refine count_le (htimes ip) _ fun t u ht hu => ?_
      simp only [decide_eq_true_eq] at ht hu
      linarith
  · rw [served_eq,served_eq,timesOf,timesOf,filter_filter]
    simp

theorem rate_limited_calls : (served 1 60 [((0 : ℕ),0),(0,30),(0,60)] 0).log = [0,60] ∧
    (served 1 60 [((0 : ℕ),0),(0,30),(0,60)] 0).log.countP (fun u => 0 ≤ u ∧ u < 0+60) ≤ 1 :=
  ⟨by decide +kernel,(((rate_limited 1 60 _ (by decide +kernel)).2 0).1 0).1⟩

end TinyDeviceOs.RateLimiter
