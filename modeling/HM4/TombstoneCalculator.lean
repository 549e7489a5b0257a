import Mathlib.Algebra.Group.Nat.Defs
import Mathlib.Data.List.Induction
import Mathlib.Order.Fin.Basic
import Mathlib.Order.MinMax

/-!
# The tombstone calculator

The calculator is fed the time ranges of the tables one by one. It keeps one
candidate, a range below all others met so far, and an endless forbidden zone
that starts where the first of the others starts. A range that reaches the
forbidden zone is put there at once, without a look at the candidate. So a long
range may pass below the candidate and leave it in place.
-/

namespace HM4.TombstoneCalculator

variable {T : Type*} [LinearOrder T] [OrderTop T]

/-- `Range`: both ends are at `numeric_limits<T>::max()` by default. -/
structure Range (T : Type*) [LinearOrder T] [OrderTop T] where
  start : T := ⊤
  finish : T := ⊤

/-- `EndlessRange`. -/
structure EndlessRange (T : Type*) [LinearOrder T] [OrderTop T] where
  start : T := ⊤

/-- `EndlessRange::expand`. -/
def EndlessRange.expand (e : EndlessRange T) (range : Range T) : EndlessRange T :=
  ⟨min e.start range.start⟩

/-- `Range::compare` with a range. -/
def Range.compare (range other : Range T) : Ordering :=
  if range.finish < other.start then .lt
  else if other.finish < range.start then .gt
  else .eq

/-- `Range::compare` with an endless range. -/
def Range.compareEndless (range : Range T) (other : EndlessRange T) : Ordering :=
  if range.finish < other.start then .lt else .eq

/-- `TombstoneCalculator`; the empty payload names no table. -/
structure Calculator (T : Type*) [LinearOrder T] [OrderTop T] where
  /-- Everything from the first start of the ranges that are not the candidate. -/
  forbidden : EndlessRange T := {}
  /-- The candidate. -/
  current : Range T := {}
  /-- The name of the candidate's table. -/
  payload : String := ""

/-- `TombstoneCalculator::insert_`. -/
def Calculator.insert (s : Calculator T) (range : Range T) (payload : String) : Calculator T :=
  if range.compareEndless s.forbidden = .eq then
    { s with forbidden := s.forbidden.expand range }
  else
    match range.compare s.current with
    | .eq => ⟨(s.forbidden.expand range).expand s.current, {}, ""⟩
    | .gt => { s with forbidden := s.forbidden.expand range }
    | .lt => ⟨s.forbidden.expand s.current, range, payload⟩

/-- A table as `analyze` feeds it: its times and the name of its file. -/
structure Feed (T : Type*) [LinearOrder T] [OrderTop T] extends Range T where
  payload : String
  start_le_finish : start ≤ finish
  payload_ne : payload ≠ ""

/-- The calculator after a sequence of tables. -/
def run (fs : List (Feed T)) : Calculator T :=
  fs.foldl (fun s r => s.insert r.toRange r.payload) {}

/-- `TombstoneCalculator::operator()`. -/
def answer (fs : List (Feed T)) : String := (run fs).payload

/-- Dropping the tombstones of a table is safe if it ends before all others start. -/
def IsSafe (fs : List (Feed T)) (c : Feed T) : Prop :=
  ∃ others, fs.Perm (c :: others) ∧ ∀ r ∈ others, c.finish < r.start

/-- The answer names a safe table only, and names it if there is one. -/
def Right (fs : List (Feed T)) : Prop :=
  (answer fs ≠ "" → ∃ c, IsSafe fs c ∧ answer fs = c.payload) ∧
    ∀ c, IsSafe fs c → answer fs = c.payload

/-- A range that does not disturb the candidate `c` after the ranges `seen`: it is
above the candidate, or it ends in the zone of the ranges seen. -/
def Passes (c : Feed T) (seen : List (Feed T)) (r : Feed T) : Prop :=
  c.finish < r.start ∨ r.finish = ⊤ ∨ ∃ s ∈ seen, s.start ≤ r.finish

/-- A range that is a candidate after it is fed and is not disturbed later on. -/
def Candidate (pre : List (Feed T)) (c : Feed T) (post : List (Feed T)) : Prop :=
  c.finish < ⊤ ∧ (∀ r ∈ pre, c.finish < r.start) ∧
    ∀ mid r rest, post = mid ++ r :: rest → Passes c (pre ++ mid) r

/-- A candidate that is not disturbed stands above the start of a later range. -/
def Undercut (fs : List (Feed T)) : Prop :=
  ∃ pre c post, fs = pre ++ c :: post ∧ Candidate pre c post ∧ ∃ r ∈ post, r.start ≤ c.finish

/-- The only range ends at the largest time, where the forbidden zone starts. -/
def LoneEndless (fs : List (Feed T)) : Prop := ∃ c, fs = [c] ∧ c.finish = ⊤

/-- The start of a forbidden zone that covers exactly the given ranges. -/
def Covers (e : EndlessRange T) (rs : List (Feed T)) : Prop :=
  ∀ x, e.start ≤ x ↔ x = ⊤ ∨ ∃ r ∈ rs, r.start ≤ x

theorem covers_nil : Covers ({} : EndlessRange T) [] := by
  intro x
  simp [top_le_iff]

theorem Covers.expand {e : EndlessRange T} {rs : List (Feed T)} (h : Covers e rs) (r : Feed T) :
    Covers (e.expand r.toRange) (rs ++ [r]) := by
  intro x
  simp only [EndlessRange.expand, min_le_iff, h x, List.mem_append, List.mem_singleton, or_and_right,
    exists_or, exists_eq_left, or_assoc]

theorem Covers.perm {e : EndlessRange T} {rs ts : List (Feed T)} (h : Covers e rs)
    (hp : rs.Perm ts) : Covers e ts := by
  intro x
  simp only [h x, hp.mem_iff]

/-- The default range does not move the zone. -/
theorem EndlessRange.expand_default (e : EndlessRange T) : e.expand {} = e := by
  simp [EndlessRange.expand]

theorem compareEndless_eq_iff {range : Range T} {e : EndlessRange T} :
    range.compareEndless e = .eq ↔ e.start ≤ range.finish := by
  unfold Range.compareEndless
  split <;> simp_all

/-- A range that reaches the zone is put there, whatever the candidate is. -/
theorem insert_of_zone {s : Calculator T} {r : Range T} (h : s.forbidden.start ≤ r.finish)
    (name : String) : s.insert r name = { s with forbidden := s.forbidden.expand r } :=
  if_pos (compareEndless_eq_iff.mpr h)

theorem insert_of_not_zone {s : Calculator T} {r : Range T} (h : ¬ s.forbidden.start ≤ r.finish)
    (name : String) : s.insert r name =
      match r.compare s.current with
      | .eq => ⟨(s.forbidden.expand r).expand s.current, {}, ""⟩
      | .gt => { s with forbidden := s.forbidden.expand r }
      | .lt => ⟨s.forbidden.expand s.current, r, name⟩ :=
  if_neg (fun he => h (compareEndless_eq_iff.mp he))

/-- A range below the zone and the candidate is the new candidate. -/
theorem insert_of_older {s : Calculator T} {r : Range T} (h : ¬ s.forbidden.start ≤ r.finish)
    (hlt : r.finish < s.current.start) (name : String) :
    s.insert r name = ⟨s.forbidden.expand s.current, r, name⟩ := by
  have hcmp : r.compare s.current = .lt := if_pos hlt
  rw [insert_of_not_zone h, hcmp]

/-- A range below the zone and above the candidate is put into the zone. -/
theorem insert_of_younger {s : Calculator T} {r : Range T} (h : ¬ s.forbidden.start ≤ r.finish)
    (hlt : ¬ r.finish < s.current.start) (hgt : s.current.finish < r.start) (name : String) :
    s.insert r name = { s with forbidden := s.forbidden.expand r } := by
  have hcmp : r.compare s.current = .gt := (if_neg hlt).trans (if_pos hgt)
  rw [insert_of_not_zone h, hcmp]

/-- A range below the zone that overlaps the candidate is put there with it. -/
theorem insert_of_overlap {s : Calculator T} {r : Range T} (h : ¬ s.forbidden.start ≤ r.finish)
    (hlt : ¬ r.finish < s.current.start) (hgt : ¬ s.current.finish < r.start) (name : String) :
    s.insert r name = ⟨(s.forbidden.expand r).expand s.current, {}, ""⟩ := by
  have hcmp : r.compare s.current = .eq := (if_neg hlt).trans (if_neg hgt)
  rw [insert_of_not_zone h, hcmp]

/-- The places where a sequence with one more range can be cut. -/
theorem concat_eq_iff {fs pre post : List (Feed T)} {r c : Feed T} :
    fs ++ [r] = pre ++ c :: post ↔ (fs = pre ∧ r = c ∧ post = []) ∨
      ∃ post', post = post' ++ [r] ∧ fs = pre ++ c :: post' := by
  constructor
  · intro h
    rcases List.eq_nil_or_concat post with rfl | ⟨post', t, rfl⟩
    · obtain ⟨hfs, hr⟩ := List.append_inj' h rfl
      exact .inl ⟨hfs, List.singleton_inj.mp hr, rfl⟩
    · rw [List.concat_eq_append, ← List.cons_append, ← List.append_assoc] at h
      obtain ⟨hfs, hr⟩ := List.append_inj' h rfl
      rw [List.singleton_inj.mp hr, List.concat_eq_append]
      exact .inr ⟨post', rfl, hfs⟩
  · rintro (⟨rfl, rfl, rfl⟩ | ⟨post', rfl, rfl⟩)
    · rfl
    · simp

/-- A candidate that a further range leaves in place. -/
theorem candidate_concat {pre post : List (Feed T)} {c r : Feed T} :
    Candidate pre c (post ++ [r]) ↔ Candidate pre c post ∧ Passes c (pre ++ post) r := by
  constructor
  · rintro ⟨hfin, hpre, hpost⟩
    refine ⟨⟨hfin, hpre, ?_⟩, hpost post r [] rfl⟩
    rintro mid s rest rfl
    exact hpost mid s (rest ++ [r]) (by simp)
  · rintro ⟨⟨hfin, hpre, hpost⟩, hr⟩
    refine ⟨hfin, hpre, fun mid s rest heq => ?_⟩
    rcases concat_eq_iff.mp heq with ⟨rfl, rfl, -⟩ | ⟨rest', -, hpost'⟩
    · exact hr
    · exact hpost mid s rest' hpost'

theorem candidate_nil {pre : List (Feed T)} {c : Feed T} :
    Candidate pre c [] ↔ c.finish < ⊤ ∧ ∀ r ∈ pre, c.finish < r.start := by
  simp [Candidate]

/-- The last range of a sequence is a candidate, or an earlier one is and is left in place. -/
theorem exists_candidate_concat {fs : List (Feed T)} {r : Feed T} :
    (∃ pre c post, fs ++ [r] = pre ++ c :: post ∧ Candidate pre c post) ↔
      Candidate fs r [] ∨
        ∃ pre c post, fs = pre ++ c :: post ∧ Candidate pre c post ∧ Passes c (pre ++ post) r := by
  constructor
  · rintro ⟨pre, c, post, heq, hc⟩
    rcases concat_eq_iff.mp heq with ⟨rfl, rfl, rfl⟩ | ⟨post', rfl, hfs⟩
    · exact .inl hc
    · exact .inr ⟨pre, c, post', hfs, candidate_concat.mp hc⟩
  · rintro (h | ⟨pre, c, post, rfl, hc⟩)
    · exact ⟨fs, r, [], rfl, h⟩
    · exact ⟨pre, c, post ++ [r], by simp, candidate_concat.mpr hc⟩

/-- A candidate that is fed later lies below the earlier ones and disturbs them. -/
theorem Candidate.not_later {pre mid post : List (Feed T)} {c d : Feed T}
    (hc : Candidate pre c (mid ++ d :: post)) : ¬ Candidate (pre ++ c :: mid) d post := by
  rintro ⟨hfin, hpre, -⟩
  have hdc : d.finish < c.start := hpre c (by simp)
  rcases hc.2.2 mid d post rfl with h | h | ⟨s, hs, hle⟩
  · have hcd : c.finish < c.finish :=
      calc c.finish < d.start := h
        _ ≤ d.finish := d.start_le_finish
        _ < c.start := hdc
        _ ≤ c.finish := c.start_le_finish
    exact lt_irrefl _ hcd
  · exact hfin.ne h
  · have hds : d.finish < s.start := hpre s (by
      rcases List.mem_append.mp hs with h | h <;> simp [h])
    exact hds.not_ge hle

/-- There is at most one candidate. -/
theorem Candidate.unique {pre pre' post post' : List (Feed T)} {c d : Feed T}
    (hc : Candidate pre c post) (hd : Candidate pre' d post')
    (h : pre ++ c :: post = pre' ++ d :: post') : pre = pre' ∧ c = d ∧ post = post' := by
  rcases List.append_eq_append_iff.mp h with ⟨as, hpre, hpost⟩ | ⟨as, hpre, hpost⟩
  · cases as with
    | nil => simp_all
    | cons a as =>
      obtain ⟨rfl, rfl⟩ := List.cons.inj hpost
      subst hpre
      exact absurd hd hc.not_later
  · cases as with
    | nil => simp_all
    | cons a as =>
      obtain ⟨rfl, rfl⟩ := List.cons.inj hpost
      subst hpre
      exact absurd hc hd.not_later

/-- The state after a sequence: a candidate and the zone of the others, or no
candidate and the zone of all. -/
def Tracks (fs : List (Feed T)) (s : Calculator T) : Prop :=
  (s.current = {} ∧ s.payload = "" ∧ Covers s.forbidden fs ∧
      ¬ ∃ pre c post, fs = pre ++ c :: post ∧ Candidate pre c post) ∨
    ∃ pre c post, fs = pre ++ c :: post ∧ Candidate pre c post ∧
      s.current = c.toRange ∧ s.payload = c.payload ∧ Covers s.forbidden (pre ++ post)

/-- A range that does not reach the zone ends below all ranges in it. -/
theorem Covers.below {e : EndlessRange T} {rs : List (Feed T)} (h : Covers e rs) {x : T}
    (hx : ¬ e.start ≤ x) : x < ⊤ ∧ ∀ q ∈ rs, x < q.start := by
  rw [h x, not_or] at hx
  exact ⟨lt_top_iff_ne_top.mpr hx.1, fun q hq => not_le.mp fun hle => hx.2 ⟨q, hq, hle⟩⟩

/-- A range that does not reach the zone passes the candidate only from above. -/
theorem Covers.not_passes {e : EndlessRange T} {rs : List (Feed T)} (h : Covers e rs)
    {c r : Feed T} (hr : ¬ e.start ≤ r.finish) (hgt : ¬ c.finish < r.start) : ¬ Passes c rs r := by
  rintro (habove | hzone)
  · exact hgt habove
  · exact hr ((h _).mpr hzone)

/-- The zone after the candidate is put there as well. -/
theorem Covers.give_up {e : EndlessRange T} {pre post : List (Feed T)} {c : Feed T}
    (h : Covers e (pre ++ post)) : Covers (e.expand c.toRange) (pre ++ c :: post) := by
  refine (h.expand c).perm ?_
  rw [List.append_assoc]
  exact (List.perm_append_singleton c post).append_left pre

/-- Feeding one more range. -/
theorem Tracks.insert {fs : List (Feed T)} {s : Calculator T} (h : Tracks fs s) (r : Feed T) :
    Tracks (fs ++ [r]) (s.insert r.toRange r.payload) := by
  by_cases hzone : s.forbidden.start ≤ r.finish
  · -- the range ends in the zone and the candidate is not looked at
    rw [insert_of_zone hzone]
    rcases h with ⟨hcur, hpay, hcov, hnone⟩ | ⟨pre, c, post, rfl, hc, hcur, hpay, hcov⟩
    · refine .inl ⟨hcur, hpay, hcov.expand r, ?_⟩
      rw [exists_candidate_concat]
      rintro (hlast | ⟨pre, c, post, hfs, hc, -⟩)
      · obtain ⟨hfin, hall⟩ := candidate_nil.mp hlast
        rcases (hcov _).mp hzone with htop | ⟨q, hq, hle⟩
        · exact hfin.ne htop
        · exact (hall q hq).not_ge hle
      · exact hnone ⟨pre, c, post, hfs, hc⟩
    · have hpass : Passes c (pre ++ post) r := .inr ((hcov _).mp hzone)
      refine .inr ⟨pre, c, post ++ [r], by simp, candidate_concat.mpr ⟨hc, hpass⟩, hcur, hpay, ?_⟩
      rw [← List.append_assoc]
      exact hcov.expand r
  · rcases h with ⟨hcur, -, hcov, -⟩ | ⟨pre, c, post, rfl, hc, hcur, hpay, hcov⟩
    · -- there is no candidate and the range lies below the zone
      have hbelow := hcov.below hzone
      rw [insert_of_older hzone (by rw [hcur]; exact hbelow.1), hcur, EndlessRange.expand_default]
      refine .inr ⟨fs, r, [], rfl, candidate_nil.mpr hbelow, rfl, rfl, ?_⟩
      rw [List.append_nil]
      exact hcov
    · obtain ⟨hfin, hothers⟩ := hcov.below hzone
      by_cases hlt : r.finish < c.start
      · rw [insert_of_older hzone (by rwa [hcur]), hcur]
        have hall : ∀ q ∈ pre ++ c :: post, r.finish < q.start := by
          simp only [List.mem_append, List.mem_cons] at hothers ⊢
          rintro q (hq | rfl | hq)
          · exact hothers q (.inl hq)
          · exact hlt
          · exact hothers q (.inr hq)
        refine .inr ⟨pre ++ c :: post, r, [], rfl, candidate_nil.mpr ⟨hfin, hall⟩, rfl, rfl, ?_⟩
        rw [List.append_nil]
        exact hcov.give_up
      · by_cases hgt : c.finish < r.start
        · rw [insert_of_younger hzone (by rwa [hcur]) (by rwa [hcur])]
          have hc' := candidate_concat.mpr ⟨hc, .inl hgt⟩
          refine .inr ⟨pre, c, post ++ [r], by simp, hc', hcur, hpay, ?_⟩
          rw [← List.append_assoc]
          exact hcov.expand r
        · -- the two overlap and both are given up
          rw [insert_of_overlap hzone (by rwa [hcur]) (by rwa [hcur]), hcur]
          have hcov' : Covers (s.forbidden.expand r.toRange) (pre ++ (post ++ [r])) := by
            rw [← List.append_assoc]
            exact hcov.expand r
          refine .inl ⟨rfl, rfl, ?_, ?_⟩
          · rw [List.append_assoc, List.cons_append]
            exact hcov'.give_up
          · rw [exists_candidate_concat]
            rintro (hlast | ⟨pre', d, post', hfs, hd, hpass⟩)
            · exact hlt ((candidate_nil.mp hlast).2 c (by simp))
            · obtain ⟨rfl, rfl, rfl⟩ := hc.unique hd hfs
              exact hcov.not_passes hzone hgt hpass

/-- After every sequence. -/
theorem tracks_run (fs : List (Feed T)) : Tracks fs (run fs) := by
  induction fs using List.reverseRecOn with
  | nil => exact .inl ⟨rfl, rfl, covers_nil, by simp⟩
  | append_singleton fs r ih =>
    rw [run, List.foldl_append]
    exact ih.insert r

/-- The answer is the name of the candidate. -/
theorem answer_eq_of_candidate {pre post : List (Feed T)} {c : Feed T}
    (h : Candidate pre c post) : answer (pre ++ c :: post) = c.payload := by
  rcases tracks_run (pre ++ c :: post) with ⟨-, -, -, hnone⟩ | ⟨pre', d, post', heq, hd, -, hpay, -⟩
  · exact absurd ⟨pre, c, post, rfl, h⟩ hnone
  · obtain ⟨-, rfl, -⟩ := h.unique hd heq
    exact hpay

theorem exists_candidate_of_answer {fs : List (Feed T)} (h : answer fs ≠ "") :
    ∃ pre c post, fs = pre ++ c :: post ∧ Candidate pre c post ∧ answer fs = c.payload := by
  rcases tracks_run fs with ⟨-, hpay, -⟩ | ⟨pre, c, post, hfs, hc, -, hpay, -⟩
  · exact absurd hpay h
  · exact ⟨pre, c, post, hfs, hc, hpay⟩

/-- A safe table, at its place in the sequence. -/
theorem isSafe_iff {fs : List (Feed T)} {c : Feed T} :
    IsSafe fs c ↔ ∃ pre post, fs = pre ++ c :: post ∧ ∀ r ∈ pre ++ post, c.finish < r.start := by
  constructor
  · rintro ⟨others, hperm, hall⟩
    obtain ⟨pre, post, rfl⟩ := List.append_of_mem (hperm.mem_iff.mpr List.mem_cons_self)
    have hrest : (pre ++ post).Perm others :=
      List.Perm.cons_inv (List.perm_middle.symm.trans hperm)
    exact ⟨pre, post, rfl, fun r hr => hall r (hrest.subset hr)⟩
  · rintro ⟨pre, post, rfl, hall⟩
    exact ⟨pre ++ post, List.perm_middle, hall⟩

theorem IsSafe.perm {fs es : List (Feed T)} (h : es.Perm fs) {c : Feed T} :
    IsSafe es c ↔ IsSafe fs c := by
  constructor
  · rintro ⟨others, hp, hall⟩
    exact ⟨others, h.symm.trans hp, hall⟩
  · rintro ⟨others, hp, hall⟩
    exact ⟨others, h.trans hp, hall⟩

/-- A safe table is a candidate, unless it is alone and ends at the largest time. -/
theorem candidate_of_safe {pre post : List (Feed T)} {c : Feed T}
    (hall : ∀ r ∈ pre ++ post, c.finish < r.start) (hlone : ¬ LoneEndless (pre ++ c :: post)) :
    Candidate pre c post := by
  refine ⟨?_, fun r hr => hall r (by simp [hr]), fun mid r rest heq => .inl (hall r (by simp [heq]))⟩
  rcases List.eq_nil_or_concat (pre ++ post) with hnil | ⟨ts, t, hts⟩
  · obtain ⟨rfl, rfl⟩ := List.append_eq_nil_iff.mp hnil
    exact lt_top_iff_ne_top.mpr fun htop => hlone ⟨c, rfl, htop⟩
  · exact (hall t (by simp [hts])).trans_le le_top

/-- The answer to one sequence is right unless its candidate is undercut, or the
only range is endless. -/
theorem right_iff (fs : List (Feed T)) : Right fs ↔ ¬ (LoneEndless fs ∨ Undercut fs) := by
  constructor
  · rintro ⟨hsound, hcomplete⟩ (⟨c, rfl, htop⟩ | ⟨pre, c, post, rfl, hc, r, hr, hle⟩)
    · have hsafe : answer [c] = c.payload := hcomplete c ⟨[], .refl _, by simp⟩
      obtain ⟨pre, d, post, heq, hd, -⟩ := exists_candidate_of_answer (hsafe ▸ c.payload_ne)
      have hdc : d ∈ [c] := by simp [heq]
      rw [List.mem_singleton.mp hdc] at hd
      exact hd.1.ne htop
    · have hne : answer (pre ++ c :: post) ≠ "" := by
        rw [answer_eq_of_candidate hc]
        exact c.payload_ne
      obtain ⟨d, hd, -⟩ := hsound hne
      obtain ⟨pre', post', heq, hall⟩ := isSafe_iff.mp hd
      have hlone : ¬ LoneEndless (pre' ++ d :: post') := by
        rintro ⟨e, he, -⟩
        rw [← heq] at he
        have hlen := congrArg List.length he
        have hpos := List.length_pos_of_mem hr
        simp only [List.length_append, List.length_cons, List.length_nil] at hlen
        omega
      obtain ⟨rfl, rfl, rfl⟩ := hc.unique (candidate_of_safe hall hlone) heq
      exact (hall r (by simp [hr])).not_ge hle
  · intro h
    obtain ⟨hlone, hcut⟩ := not_or.mp h
    constructor
    · intro hne
      obtain ⟨pre, c, post, rfl, hc, hans⟩ := exists_candidate_of_answer hne
      refine ⟨c, isSafe_iff.mpr ⟨pre, post, rfl, fun r hr => ?_⟩, hans⟩
      rcases List.mem_append.mp hr with hr | hr
      · exact hc.2.1 r hr
      · exact not_le.mp fun hle => hcut ⟨pre, c, post, rfl, hc, r, hr, hle⟩
    · intro c hc
      obtain ⟨pre, post, rfl, hall⟩ := isSafe_iff.mp hc
      exact answer_eq_of_candidate (candidate_of_safe hall hlone)

/-- Two orders of the same tables have the same answer if both answers are right. -/
theorem Right.answer_eq {fs es : List (Feed T)} (hp : es.Perm fs) (hf : Right fs) (he : Right es) :
    answer es = answer fs := by
  by_cases hne : answer es = ""
  · by_contra hdiff
    obtain ⟨c, hc, hans⟩ := hf.1 (fun h => hdiff (hne.trans h.symm))
    exact hdiff ((he.2 c ((IsSafe.perm hp).mpr hc)).trans hans.symm)
  · obtain ⟨c, hc, hans⟩ := he.1 hne
    exact hans.trans (hf.2 c ((IsSafe.perm hp).mp hc)).symm

/-- For one sequence the answer is right exactly if no undisturbed candidate is
undercut and the only range is not endless; and it is right and the same in every
order exactly if this holds in every order. -/
theorem calculator_right_iff (fs : List (Feed T)) :
    (Right fs ↔ ¬ (LoneEndless fs ∨ Undercut fs)) ∧
      ((∀ es, es.Perm fs → Right es ∧ answer es = answer fs) ↔
        ∀ es, es.Perm fs → ¬ (LoneEndless es ∨ Undercut es)) := by
  refine ⟨right_iff fs, fun h es hp => (right_iff es).mp (h es hp).1, fun h es hp => ?_⟩
  have hf : Right fs := (right_iff fs).mpr (h fs (.refl fs))
  have he : Right es := (right_iff es).mpr (h es hp)
  exact ⟨he, hf.answer_eq hp he⟩

/-- A candidate, a younger range, and a long range that is older than both. -/
def longRange : List (Feed (Fin (2 ^ 64))) :=
  [⟨⟨20, 30⟩, "a", by decide, by decide⟩, ⟨⟨40, 45⟩, "b", by decide, by decide⟩,
    ⟨⟨5, 50⟩, "c", by decide, by decide⟩]

/-- The long range ends in the zone of the younger one, and the candidate is named
although the long range starts before it. -/
theorem calculator_unsafe : ¬ ∀ fs : List (Feed (Fin (2 ^ 64))), Right fs := by
  intro h
  have hans : answer longRange = "a" := by decide
  obtain ⟨c, ⟨others, hperm, hall⟩, hpay⟩ := (h longRange).1 (by rw [hans]; decide)
  rw [hans] at hpay
  have hmem : ∀ r : Feed (Fin (2 ^ 64)), r ∈ longRange → r = c ∨ c.finish < r.start :=
    fun r hr => (List.mem_cons.mp (hperm.subset hr)).imp_right (hall r)
  rcases hmem _ (List.mem_cons_self) with rfl | hlt
  · rcases hmem ⟨⟨5, 50⟩, "c", by decide, by decide⟩ (by simp [longRange]) with heq | hlt
    · exact absurd (congrArg Feed.payload heq) (by decide)
    · exact absurd hlt (by decide)
  · have hc : c ∈ longRange := hperm.mem_iff.mpr List.mem_cons_self
    simp only [longRange, List.mem_cons, List.not_mem_nil, or_false] at hc
    rcases hc with rfl | rfl | rfl
    · exact absurd hlt (by decide)
    · exact absurd hpay (by decide)
    · exact absurd hpay (by decide)

end HM4.TombstoneCalculator
