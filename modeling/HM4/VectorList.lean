import HM4.ListSteps

/-!
# The vector list

Pointers to pairs in a vector, in the order of `Pair::cmp`, which looks at the first
octet as a signed number. The vector takes its own memory and may fail to.
-/

namespace HM4.VectorList

open LexPrefix Bytes MyString Pairs PairFactory MemList KeyedList BoundedSearch ListSteps

/-- `VectorList` with the state of its allocator. -/
structure State (σ : Type) where
  /-- `vector_`. -/
  vector : List PairPtr
  /-- `lc_`. -/
  lc : ListCounter
  /-- The allocator's state. -/
  alloc : σ

section Code

variable {σ : Type} (allocator : Allocator σ) (list : State σ)

/-- An empty list. -/
def State.empty (alloc : σ) : State σ := ⟨[], ListCounter.zero, alloc⟩

/-- `binarySearch` over the vector. -/
def search (vector : List PairPtr) (key : Key) : Option SearchResult :=
  binarySearch (comparator (fun p => p.data.cmp key) vector) 5 () 0 vector.length

/-- `find`: the pairs from there on. -/
def find (key : Key) : Option (List Pair) := do
  let r ← search list.vector key
  return (list.vector.drop r.pos).map PairPtr.data

/-- `getPair___`. -/
def getPair (key : Key) : Option (Option Pair) := do
  let r ← search list.vector key
  if r.found then
    let p ← list.vector[r.pos]?
    return some p.data
  else return none

/-- `insertF`; `room` tells whether the vector gets the memory it may need. -/
def insertF (room : Bool) (factory : Factory) (now : UInt64) : Option (InsertResult × State σ) :=
  if h : factory.valid = true then
    match search list.vector factory.getKey with
    | none => none
    | some ⟨true, it⟩ => do
      let olddata ← list.vector[it]?
      let (r, change, lc, alloc) := updatePair allocator list.alloc factory h now list.lc olddata
      return (r, ⟨list.vector.set it (change.ptr olddata), lc, alloc⟩)
    | some ⟨false, it⟩ =>
      match createPair allocator list.alloc factory h now with
      | (none, alloc) => some (⟨.ERROR_NO_MEMORY, none⟩, ⟨list.vector, list.lc, alloc⟩)
      | (some newdata, alloc) =>
        if room then
          some (⟨.INSERTED, some newdata.data⟩,
            ⟨list.vector.insertIdx it newdata, list.lc.inc newdata.data.bytes, alloc⟩)
        else
          some (⟨.ERROR, none⟩,
            ⟨list.vector, list.lc, allocator.xdeallocate newdata.block.addr alloc⟩)
  else some (⟨.ERROR_INVALID, none⟩, list)

/-- `erase___`, which asserts that there is a key. -/
def erase (key : Key) : Option (InsertResult × State σ) :=
  if key = [] then none
  else
    match search list.vector key with
    | none => none
    | some ⟨true, it⟩ => do
      let p ← list.vector[it]?
      return (⟨.DELETED, none⟩, ⟨list.vector.eraseIdx it, list.lc.dec p.data.bytes,
        allocator.xdeallocate p.block.addr list.alloc⟩)
    | some ⟨false, _⟩ => some (⟨.SKIP_DELETED, none⟩, list)

/-- `clear`. -/
def clear : State σ :=
  match allocator.reset list.alloc with
  | (true, alloc) => ⟨[], list.lc.clr, alloc⟩
  | (false, alloc) => ⟨[], list.lc.clr,
      list.vector.foldl (fun alloc p => allocator.xdeallocate p.block.addr alloc) alloc⟩

/-- One operation on the list. -/
def step (room : Bool) (op : Op) : Option (Option InsertResult × State σ) :=
  match op with
  | .insert factory now => do
    let (r, list) ← insertF allocator list room factory now
    return (some r, list)
  | .erase key => do
    let (r, list) ← erase allocator list key
    return (some r, list)
  | .clear => some (none, clear allocator list)

end Code

/-! ## Order -/

/-- The rank of a pair. -/
def rank (p : PairPtr) : List ℤ := signedWord p.data.key

theorem cmp_eq_lex {key : Key} (hk : key ≠ []) (p : PairPtr) :
    p.data.cmp key = lex (rank p) (signedWord key) := by
  rw [Pair.cmp, if_neg hk, compare_eq_lex_signedWord]
  rfl

/-- The search cuts the vector. -/
theorem search_spec {vector : List PairPtr} (h : Increasing rank vector) {key : Key}
    (hk : key ≠ []) :
    ∃ l1 l2 found, search vector key = some ⟨found, l1.length⟩ ∧
      Cut rank (signedWord key) vector l1 l2 found :=
  ListSteps.search_spec h (fun p => by rw [cmp_eq_lex hk, lex_eq_lt])
    (fun p => by rw [cmp_eq_lex hk, lex_eq_eq]) 5

/-! ## Operations -/

/-- What goes wrong: there is no memory for the pair, or none for the vector. -/
def Fails (refused : Prop) (room : Bool) (status : Status) : Prop :=
  status = .ERROR_NO_MEMORY ∧ refused ∨ status = .ERROR ∧ room = false

section Steps

variable {σ : Type} (allocator : Allocator σ) {list : State σ} (room : Bool)

/-- An insert is refused the memory for the pair. -/
def refuses (alloc : σ) : Op → Prop
  | .insert factory _ => Refuses allocator [factory.bytes] alloc
  | _ => False

/-- An insert changes the pointer of the key only. -/
theorem insertF_spec (hl : Increasing rank list.vector) (factory : Factory) (now : UInt64) :
    ∃ r list', insertF allocator list room factory now = some (r, list') ∧
      Inserted rank PairPtr.data factory now (Owns allocator list.alloc)
        (Fails (refuses allocator list.alloc (.insert factory now)) room)
        (signedWord factory.getKey) list.lc list.vector r list'.lc list'.vector := by
  unfold insertF
  by_cases h : factory.valid = true
  · have hk : factory.getKey ≠ [] := List.ne_nil_of_length_pos (factory.valid_key h).1
    rw [dif_pos h]
    obtain ⟨l1, l2, found, e, hcut⟩ := search_spec hl hk
    have heq := hcut.eq
    have h1 := hcut.below
    rw [e]
    cases found with
    | true =>
      obtain ⟨old, l3, rfl, ho, h2⟩ := hcut.here rfl
      have hget : list.vector[l1.length]? = some old := by
        rw [heq, List.getElem?_append_right le_rfl, Nat.sub_self]
        rfl
      have hkey : old.data.key = factory.getKey := signedWord_injective ho
      obtain ⟨r, c, lc, alloc, hupd, hins⟩ := updatePair_spec rank PairPtr.data allocator list.alloc h
        now list.lc old (Fails (refuses allocator list.alloc (.insert factory now)) room)
        (fun c => c.ptr old) h1 h2 ho rfl rfl
        (fun ptr hd => ⟨congrArg signedWord (hd ▸ factory.createHint_key h now _ hkey), rfl⟩)
        (fun ptr hd => ⟨congrArg signedWord (hd ▸ factory.create_key h now), rfl⟩)
        fun hx => .inl ⟨rfl, .inl hx⟩
      refine ⟨r, ⟨list.vector.set l1.length (c.ptr old), lc, alloc⟩, ?_, ?_⟩
      · simp only [hget, hupd, Option.bind_eq_bind, Option.bind_some, Option.pure_def]
      · dsimp only
        rw [heq, List.set_append_right _ _ le_rfl, Nat.sub_self, List.set_cons_zero]
        exact hins
    | false =>
      have h2 := hcut.above rfl
      unfold createPair
      cases hx : allocator.xallocate factory.bytes list.alloc with
      | mk a s1 =>
        cases a with
        | none => exact ⟨_, _, rfl, .failed _ h (.inl ⟨rfl, .inl (congrArg Prod.fst hx)⟩)⟩
        | some addr =>
          cases room with
          | false => exact ⟨_, _, rfl, .failed _ h (.inr ⟨rfl, rfl⟩)⟩
          | true =>
            obtain ⟨ptr, hptr⟩ : ∃ ptr : PairPtr,
              ptr = ⟨factory.create h now, ⟨addr, factory.bytes⟩⟩ := ⟨_, rfl⟩
            have hdata : ptr.data = factory.create h now := by rw [hptr]
            have hrank : rank ptr = signedWord factory.getKey := by
              rw [rank, hdata, factory.create_key]
            refine ⟨_, _, rfl, ?_⟩
            dsimp only
            rw [← hptr, ← hdata, heq, insertIdx_append_length]
            exact .new l1 l2 ptr h h1 h2 hrank hdata
  · rw [dif_neg h]
    exact ⟨_, _, rfl, .invalid h⟩

/-- An erase takes the pointer of the key out. -/
theorem erase_spec (hl : Increasing rank list.vector) {key : Key} (hk : key ≠ []) :
    ∃ r list', erase allocator list key = some (r, list') ∧
      Erased rank PairPtr.data (signedWord key) list.lc list.vector r list'.lc list'.vector := by
  unfold erase
  rw [if_neg hk]
  obtain ⟨l1, l2, found, e, hcut⟩ := search_spec hl hk
  have heq := hcut.eq
  rw [e]
  cases found with
  | true =>
    obtain ⟨old, l3, rfl, ho, h2⟩ := hcut.here rfl
    have hget : list.vector[l1.length]? = some old := by
      rw [heq, List.getElem?_append_right le_rfl, Nat.sub_self]
      rfl
    refine ⟨⟨.DELETED, none⟩, ⟨list.vector.eraseIdx l1.length, list.lc.dec old.data.bytes,
      allocator.xdeallocate old.block.addr list.alloc⟩, ?_, ?_⟩
    · simp only [hget, Option.bind_eq_bind, Option.bind_some, Option.pure_def]
    · dsimp only
      rw [heq, List.eraseIdx_append_of_length_le le_rfl, Nat.sub_self, List.eraseIdx_cons_zero]
      exact .found l1 l3 old hcut.below h2 ho
  | false => exact ⟨_, _, rfl, .absent hcut.absent⟩

/-- Every operation changes the vector as one on a map does. -/
theorem step_spec (hl : Increasing rank list.vector) {op : Op} (hop : Keyed op) :
    ∃ r list', step allocator list room op = some (r, list') ∧
      Stepped rank PairPtr.data signedWord (Owns allocator list.alloc)
        (Fails (refuses allocator list.alloc op) room) op list.lc list.vector r list'.lc
        list'.vector := by
  cases op with
  | insert factory now =>
    obtain ⟨r, list', e, h⟩ := insertF_spec allocator room hl factory now
    refine ⟨some r, list', ?_, .insert h⟩
    simp only [step, e, Option.bind_eq_bind, Option.bind_some, Option.pure_def]
  | erase key =>
    obtain ⟨r, list', e, h⟩ := erase_spec allocator hl hop
    refine ⟨some r, list', ?_, .erase hop h⟩
    simp only [step, e, Option.bind_eq_bind, Option.bind_some, Option.pure_def]
  | clear =>
    have hclear : (clear allocator list).lc = list.lc.clr ∧ (clear allocator list).vector = [] := by
      unfold clear
      split <;> exact ⟨rfl, rfl⟩
    refine ⟨none, clear allocator list, rfl, ?_⟩
    rw [hclear.1, hclear.2]
    exact .clear

end Steps

end HM4.VectorList
