import Mathlib.Data.List.Basic
import Mathlib.Data.List.Perm.Basic

/-!
# Bounded open addressing

An entry goes into the first free cell of a short list of cells to probe, and
it is dropped when all of them are taken. Taken cells never change, so for
every entry that was put it stays true that it lies in its list with only
taken cells before it, or that its list is full. A probe that meets a free cell
therefore proves absence, in whatever order the entries were put.
-/

namespace HM4.OpenAddressing

variable {V : Type*} (taken : V → Bool)

/-- Put an entry into the first free cell of the list. -/
def put (v : V) : List ℕ → List V → List V
  | [], xs => xs
  | c :: cs, xs =>
    match xs[c]? with
    | none => put v cs xs
    | some x => if taken x then put v cs xs else xs.set c v

/-- Put entries one after the other, each with its own cells. -/
def putAll (cells : V → List ℕ) (vs : List V) (xs : List V) : List V :=
  vs.foldl (fun xs v => put taken v (cells v) xs) xs

/-- What a probe meets first. -/
inductive Probe (V : Type*)
  /-- A free cell. -/
  | free
  /-- An accepted entry. -/
  | hit (v : V)
  /-- Nothing: all cells are taken by other entries. -/
  | full

/-- Walk the list up to the first free cell or accepted entry. -/
def probe (accept : V → Bool) (xs : List V) : List ℕ → Probe V
  | [] => .full
  | c :: cs =>
    match xs[c]? with
    | none => .free
    | some x => if taken x then if accept x then .hit x else probe accept xs cs else .free

attribute [local simp] put probe

/-- A cell is taken. -/
def TakenAt (xs : List V) (c : ℕ) : Prop := ∃ x, xs[c]? = some x ∧ taken x = true

/-- Every taken cell of the first array is unchanged in the second. -/
def Keeps (xs ys : List V) : Prop :=
  ys.length = xs.length ∧ ∀ (c : ℕ) (x : V), xs[c]? = some x → taken x = true → ys[c]? = some x

/-- The entry lies in its list behind taken cells only, or the list is full. -/
def Stored (v : V) (cells : List ℕ) (xs : List V) : Prop :=
  (∃ pre c post, cells = pre ++ c :: post ∧ xs[c]? = some v ∧ ∀ d ∈ pre, TakenAt taken xs d) ∨
    ∀ d ∈ cells, TakenAt taken xs d

variable {taken}

theorem Keeps.refl (xs : List V) : Keeps taken xs xs := ⟨rfl, fun _ _ h _ => h⟩

theorem Keeps.trans {xs ys zs : List V} (h : Keeps taken xs ys) (h' : Keeps taken ys zs) :
    Keeps taken xs zs :=
  ⟨h'.1.trans h.1, fun c x hx ht => h'.2 c x (h.2 c x hx ht) ht⟩

theorem TakenAt.keeps {xs ys : List V} {c : ℕ} (h : TakenAt taken xs c)
    (hk : Keeps taken xs ys) : TakenAt taken ys c := by
  obtain ⟨x, hx, ht⟩ := h
  exact ⟨x, hk.2 c x hx ht, ht⟩

/-- A taken entry stays stored while taken cells are kept. -/
theorem Stored.keeps {v : V} {cells : List ℕ} {xs ys : List V} (hv : taken v = true)
    (h : Stored taken v cells xs) (hk : Keeps taken xs ys) : Stored taken v cells ys := by
  rcases h with ⟨pre, c, post, hcells, hc, hpre⟩ | hfull
  · exact .inl ⟨pre, c, post, hcells, hk.2 c v hc hv, fun d hd => (hpre d hd).keeps hk⟩
  · exact .inr (fun d hd => (hfull d hd).keeps hk)

/-- Putting an entry keeps taken cells. -/
theorem put_keeps (v : V) (cells : List ℕ) (xs : List V) :
    Keeps taken xs (put taken v cells xs) := by
  induction cells with
  | nil => exact Keeps.refl xs
  | cons c cells ih =>
    rw [put]
    cases hc : xs[c]? with
    | none => exact ih
    | some x =>
      dsimp only
      by_cases ht : taken x = true
      · rw [if_pos ht]
        exact ih
      · rw [if_neg ht]
        refine ⟨List.length_set, fun d y hy hty => ?_⟩
        have hne : c ≠ d := by
          intro he
          subst he
          rw [hc] at hy
          exact ht (Option.some.inj hy ▸ hty)
        rw [List.getElem?_set_ne hne, hy]

/-- After putting it an entry is stored. -/
theorem put_stored (v : V) {cells : List ℕ} {xs : List V} (hcells : ∀ c ∈ cells, c < xs.length) :
    Stored taken v cells (put taken v cells xs) := by
  induction cells with
  | nil => exact .inr (fun d hd => absurd hd List.not_mem_nil)
  | cons c cells ih =>
    have hlt : c < xs.length := hcells c List.mem_cons_self
    have hget : xs[c]? = some xs[c] := List.getElem?_eq_getElem hlt
    rw [put, hget]
    dsimp only
    by_cases ht : taken xs[c] = true
    · rw [if_pos ht]
      have hc : TakenAt taken (put taken v cells xs) c :=
        TakenAt.keeps ⟨_, hget, ht⟩ (put_keeps v cells xs)
      rcases ih (fun d hd => hcells d (List.mem_cons_of_mem c hd)) with
        ⟨pre, e, post, rfl, he, hpre⟩ | hfull
      · exact .inl ⟨c :: pre, e, post, rfl, he, List.forall_mem_cons.mpr ⟨hc, hpre⟩⟩
      · exact .inr (List.forall_mem_cons.mpr ⟨hc, hfull⟩)
    · rw [if_neg ht]
      refine .inl ⟨[], c, cells, rfl, ?_, fun d hd => absurd hd List.not_mem_nil⟩
      exact List.getElem?_set_self hlt

/-- Whatever lies in the array after putting an entry is that entry or was there. -/
theorem mem_put {v x : V} {cells : List ℕ} {xs : List V} (h : x ∈ put taken v cells xs) :
    x = v ∨ x ∈ xs := by
  induction cells with
  | nil => exact .inr h
  | cons c cells ih =>
    rw [put] at h
    cases hc : xs[c]? with
    | none => rw [hc] at h; exact ih h
    | some y =>
      rw [hc] at h
      dsimp only at h
      split at h
      · exact ih h
      · exact (List.mem_or_eq_of_mem_set h).symm

section Runs

variable {cells : V → List ℕ}

/-- A run keeps taken cells. -/
theorem putAll_keeps (vs : List V) (xs : List V) : Keeps taken xs (putAll taken cells vs xs) := by
  induction vs generalizing xs with
  | nil => exact Keeps.refl xs
  | cons v vs ih => exact (put_keeps v (cells v) xs).trans (ih _)

/-- After a run every taken entry of it is stored. -/
theorem putAll_stored {vs : List V} {xs : List V}
    (hcells : ∀ v ∈ vs, ∀ c ∈ cells v, c < xs.length) {v : V} (hv : v ∈ vs)
    (ht : taken v = true) : Stored taken v (cells v) (putAll taken cells vs xs) := by
  induction vs generalizing xs with
  | nil => exact absurd hv List.not_mem_nil
  | cons w vs ih =>
    have hlen : (put taken w (cells w) xs).length = xs.length := (put_keeps w (cells w) xs).1
    rcases List.mem_cons.mp hv with rfl | hv'
    · exact (put_stored v (hcells v List.mem_cons_self)).keeps ht (putAll_keeps vs _)
    · refine ih (fun u hu c hc => ?_) hv'
      rw [hlen]
      exact hcells u (List.mem_cons_of_mem w hu) c hc

/-- After a run the array holds entries of the run and what was there before. -/
theorem mem_putAll {vs : List V} {xs : List V} {x : V} (h : x ∈ putAll taken cells vs xs) :
    x ∈ vs ∨ x ∈ xs := by
  induction vs generalizing xs with
  | nil => exact .inr h
  | cons v vs ih =>
    rcases ih h with h | h
    · exact .inl (List.mem_cons_of_mem v h)
    · rcases mem_put h with rfl | h
      · exact .inl List.mem_cons_self
      · exact .inr h

/-- Runs one after the other are one run. -/
theorem putAll_append (vs ws : List V) (xs : List V) :
    putAll taken cells (vs ++ ws) xs = putAll taken cells ws (putAll taken cells vs xs) :=
  List.foldl_append

end Runs

/-- A hit is an accepted taken entry of one of the cells. -/
theorem probe_hit {accept : V → Bool} {xs : List V} {cells : List ℕ} {v : V}
    (h : probe taken accept xs cells = .hit v) :
    ∃ c ∈ cells, xs[c]? = some v ∧ taken v = true ∧ accept v = true := by
  induction cells with
  | nil => exact nomatch h
  | cons c cells ih =>
    rw [probe] at h
    have hrest : probe taken accept xs cells = .hit v →
        ∃ d ∈ c :: cells, xs[d]? = some v ∧ taken v = true ∧ accept v = true := by
      intro hp
      obtain ⟨d, hd, hv⟩ := ih hp
      exact ⟨d, List.mem_cons_of_mem c hd, hv⟩
    cases hc : xs[c]? with
    | none => rw [hc] at h; exact nomatch h
    | some x =>
      rw [hc] at h
      dsimp only at h
      split at h
      · next ht =>
        split at h
        · next ha =>
          obtain rfl := Probe.hit.inj h
          exact ⟨c, List.mem_cons_self, hc, ht, ha⟩
        · exact hrest h
      · exact nomatch h

/-- A probe meets a free cell only for entries that are not stored. -/
theorem probe_ne_free {accept : V → Bool} {xs : List V} {cells : List ℕ} {v : V}
    (ht : taken v = true) (ha : accept v = true) (h : Stored taken v cells xs) :
    probe taken accept xs cells ≠ .free := by
  induction cells with
  | nil => exact nofun
  | cons c cells ih =>
    have hrest : ∀ x, xs[c]? = some x → taken x = true →
        (probe taken accept xs cells ≠ .free ∨ accept x = true) →
        probe taken accept xs (c :: cells) ≠ .free := by
      intro x hx htx hor
      rw [probe, hx]
      dsimp only
      rw [if_pos htx]
      split
      · exact nofun
      · next hna => exact hor.resolve_right hna
    rcases h with ⟨pre, d, post, hcells, hd, hpre⟩ | hfull
    · cases pre with
      | nil =>
        obtain ⟨rfl, rfl⟩ := List.cons.inj hcells
        exact hrest v hd ht (.inr ha)
      | cons p pre =>
        obtain ⟨rfl, rfl⟩ := List.cons.inj hcells
        obtain ⟨x, hx, htx⟩ := hpre c List.mem_cons_self
        exact hrest x hx htx (.inl (ih (.inl ⟨pre, d, post, rfl, hd,
          fun e he => hpre e (List.mem_cons_of_mem c he)⟩)))
    · obtain ⟨x, hx, htx⟩ := hfull c List.mem_cons_self
      exact hrest x hx htx (.inl (ih (.inr fun e he => hfull e (List.mem_cons_of_mem c he))))

/-- A probe is full exactly if all cells are taken and none is accepted. -/
theorem probe_full_iff {accept : V → Bool} {xs : List V} {cells : List ℕ} :
    probe taken accept xs cells = .full ↔
      ∀ c ∈ cells, ∃ x, xs[c]? = some x ∧ taken x = true ∧ accept x = false := by
  induction cells with
  | nil => exact iff_of_true rfl (fun c hc => absurd hc List.not_mem_nil)
  | cons c cells ih =>
    rw [probe, List.forall_mem_cons, ← ih]
    cases hc : xs[c]? with
    | none => exact iff_of_false nofun (fun h => by simp at h)
    | some x =>
      dsimp only
      simp only [Option.some.injEq, exists_eq_left']
      cases ht : taken x <;> cases ha : accept x <;> simp

end HM4.OpenAddressing
