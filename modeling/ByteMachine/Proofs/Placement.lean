import ByteMachine.Assembly.Layout

/-!
Where the first pass puts statements. The place of a statement is the number of bytes of the
statements before it on its page, a symbol is the place of a labelled statement, and no page is
longer than its addresses reach.
-/
namespace ByteMachine

theorem exists_ok_of_bind {ε α β : Type} {x : Except ε α} {f : α → Except ε β} {b : β}
    (h : (x >>= f) = .ok b) : ∃ a, x = .ok a ∧ f a = .ok b := by
  cases x with
  | error e => cases h
  | ok a => exact ⟨a, rfl, h⟩

theorem exists_ok_of_isOk {ε α : Type} {x : Except ε α} (h : x.isOk = true) : ∃ a, x = .ok a := by
  cases x with
  | error e => cases h
  | ok a => exact ⟨a, rfl⟩

instance decidableEqExcept {ε α : Type} [DecidableEq ε] [DecidableEq α] : DecidableEq (Except ε α)
  | .ok a, .ok b => decidable_of_iff (a = b) ⟨congrArg Except.ok, Except.ok.inj⟩
  | .error a, .error b => decidable_of_iff (a = b) ⟨congrArg Except.error, Except.error.inj⟩
  | .ok _, .error _ => .isFalse (by simp)
  | .error _, .ok _ => .isFalse (by simp)

namespace Assembly

theorem onLine_eq_ok {α : Type} {line : Nat} {r : Except AssemblyError α} {a : α} :
    onLine line r = .ok a ↔ r = .ok a := by
  cases r with
  | error e => exact ⟨nofun, nofun⟩
  | ok b =>
    constructor
    · intro h
      cases h
      rfl
    · intro h
      cases h
      rfl

/-! ## Statements and their pages -/

theorem sectionsOnto_snd (statements : List Statement) :
    ∀ (current : Section) (done : List (Section × Statement)),
      (sectionsOnto current done statements).map Prod.snd =
        (done.map Prod.snd).reverse ++ statements := by
  induction statements with
  | nil =>
    intro current done
    simp [sectionsOnto]
  | cons s rest ih =>
    intro current done
    simp [sectionsOnto, ih]

theorem sections_snd (statements : List Statement) :
    (sections statements).map Prod.snd = statements := by
  simp [sections, sectionsOnto_snd]

theorem mem_of_mem_sections {statements : List Statement} {item : Section × Statement}
    (h : item ∈ sections statements) : item.2 ∈ statements := by
  rw [← sections_snd statements]
  exact List.mem_map_of_mem h

/-! ## Extents -/

/-- The number of bytes of a statement, none if it has no size. -/
def Statement.span (w : Widths) (page : Section) (s : Statement) : Nat :=
  match s.size w page with
  | .ok n => n
  | .error _ => 0

def extent (w : Widths) (page : Section) (items : List (Section × Statement)) : Nat :=
  (items.map fun item => if item.1 = page then item.2.span w page else 0).foldr (· + ·) 0

theorem Statement.span_of_size {w : Widths} {page : Section} {s : Statement} {n : Nat}
    (h : s.size w page = .ok n) : s.span w page = n := by
  simp [span, h]

@[simp] theorem extent_nil (w : Widths) (page : Section) : extent w page [] = 0 := rfl

theorem extent_cons (w : Widths) (page : Section) (item : Section × Statement)
    (items : List (Section × Statement)) :
    extent w page (item :: items) =
      (if item.1 = page then item.2.span w page else 0) + extent w page items := by
  simp [extent]

theorem extent_append (w : Widths) (page : Section) (a b : List (Section × Statement)) :
    extent w page (a ++ b) = extent w page a + extent w page b := by
  simp only [extent, ← List.sum_eq_foldr, List.map_append, List.sum_append_nat]

/-! ## Places and symbols -/

/-- The places of statements that follow those in `before`. -/
def placementsFrom (w : Widths) (before : List (Section × Statement)) :
    List (Section × Statement) → List Placed
  | [] => []
  | (page, s) :: rest =>
    ⟨page, extent w page before, s⟩ :: placementsFrom w (before ++ [(page, s)]) rest

def placements (w : Widths) (items : List (Section × Statement)) : List Placed :=
  placementsFrom w [] items

def Placed.item (p : Placed) : Section × Statement := (p.page, p.statement)

def Placed.symbol? (p : Placed) : Option (String × Symbol) :=
  p.statement.label.map fun name => (name, ⟨p.page, p.offset, p.statement.line⟩)

theorem placementsFrom_append (w : Widths) (a b : List (Section × Statement)) :
    ∀ before, placementsFrom w before (a ++ b) =
      placementsFrom w before a ++ placementsFrom w (before ++ a) b := by
  induction a with
  | nil =>
    intro before
    simp [placementsFrom]
  | cons item a ih =>
    intro before
    obtain ⟨page, s⟩ := item
    simp [placementsFrom, ih]

theorem placements_append_cons (w : Widths) (before after : List (Section × Statement))
    (page : Section) (s : Statement) :
    placements w (before ++ (page, s) :: after) =
      placements w before ++ ⟨page, extent w page before, s⟩ ::
        placementsFrom w (before ++ [(page, s)]) after := by
  simp [placements, placementsFrom_append, placementsFrom]

theorem placementsFrom_item (w : Widths) (items : List (Section × Statement)) :
    ∀ before, (placementsFrom w before items).map Placed.item = items := by
  induction items with
  | nil => intro before; rfl
  | cons item items ih =>
    intro before
    obtain ⟨page, s⟩ := item
    simp [placementsFrom, Placed.item, ih]

theorem placements_item (w : Widths) (items : List (Section × Statement)) :
    (placements w items).map Placed.item = items :=
  placementsFrom_item w items []

theorem length_placements (w : Widths) (items : List (Section × Statement)) :
    (placements w items).length = items.length := by
  rw [← List.length_map Placed.item, placements_item]

/-! ## The first pass -/

theorem define_cases {l l' : Layout} {page : Section} {s : Statement}
    (h : l.define page s = .ok l') :
    (∀ name, s.label = some name → l.symbols.lookup name = none) ∧
      l' = { l with
        symbols := (Placed.symbol? ⟨page, l.size page, s⟩).toList ++ l.symbols } := by
  unfold Layout.define at h
  cases hl : s.label with
  | none =>
    simp only [hl] at h
    cases h
    exact ⟨by simp, by simp [Placed.symbol?, hl]⟩
  | some name =>
    simp only [hl] at h
    cases hs : l.symbols.lookup name with
    | some existing => simp [hs] at h
    | none =>
      simp only [hs] at h
      cases h
      refine ⟨?_, by simp [Placed.symbol?, hl]⟩
      intro other ho
      obtain rfl := Option.some.inj ho
      exact hs

/-- One more statement goes where its page ends, if its label is new and the page can hold it. -/
theorem place_cases {w : Widths} {l l' : Layout} {page : Section} {s : Statement}
    (h : l.place w (page, s) = .ok l') :
    (∀ name, s.label = some name → l.symbols.lookup name = none) ∧
      ∃ n, s.size w page = .ok n ∧ l.size page + n ≤ (w.of page).maxValue ∧
        (∀ q, l'.size q = l.size q + if page = q then n else 0) ∧
        l'.placed = ⟨page, l.size page, s⟩ :: l.placed ∧
        l'.symbols = (Placed.symbol? ⟨page, l.size page, s⟩).toList ++ l.symbols := by
  obtain ⟨d, hd, h⟩ := exists_ok_of_bind h
  obtain ⟨n, hn, h⟩ := exists_ok_of_bind h
  obtain ⟨hnew, rfl⟩ := define_cases hd
  by_cases hfull : (w.of page).maxValue < l.size page + n
  · simp only [hfull, ↓reduceIte] at h
    cases h
  · simp only [hfull, ↓reduceIte] at h
    cases h
    refine ⟨hnew, n, hn, by omega, ?_, ?_, ?_⟩
    · intro q
      cases page <;> cases q <;> simp [Layout.setSize, Layout.size]
    · cases page <;> rfl
    · cases page <;> rfl

/-- What is known of the layout of a list of statements. -/
structure Layout.Agrees (w : Widths) (items : List (Section × Statement)) (l : Layout) : Prop where
  size_eq : ∀ page, l.size page = extent w page items
  size_le : ∀ page, l.size page ≤ (w.of page).maxValue
  placed_eq : l.placed.reverse = placements w items
  symbols_eq : l.symbols = l.placed.filterMap Placed.symbol?
  nodup : (l.symbols.map Prod.fst).Nodup

theorem agrees_empty (w : Widths) : Layout.Agrees w [] {} where
  size_eq := by intro page; cases page <;> rfl
  size_le := by intro page; cases page <;> exact Nat.zero_le _
  placed_eq := rfl
  symbols_eq := rfl
  nodup := .nil

theorem not_mem_keys_of_lookup {symbols : List (String × Symbol)} {name : String}
    (h : symbols.lookup name = none) : name ∉ symbols.map Prod.fst := by
  rw [List.lookup_eq_none_iff] at h
  intro hm
  obtain ⟨entry, he, rfl⟩ := List.mem_map.1 hm
  simpa using h entry he

theorem agrees_place {w : Widths} {items : List (Section × Statement)} {l l' : Layout}
    {item : Section × Statement} (hl : l.Agrees w items) (h : l.place w item = .ok l') :
    l'.Agrees w (items ++ [item]) := by
  obtain ⟨page, s⟩ := item
  obtain ⟨hnew, n, hn, hfit, hsize, hplaced, hsymbols⟩ := place_cases h
  refine ⟨?_, ?_, ?_, ?_, ?_⟩
  · intro q
    rw [hsize, hl.size_eq, extent_append, extent_cons, extent_nil, Nat.add_zero]
    by_cases hq : page = q
    · subst hq
      simp [Statement.span_of_size hn]
    · simp [hq]
  · intro q
    rw [hsize]
    by_cases hq : page = q
    · subst hq
      simpa using hfit
    · simpa [hq] using hl.size_le q
  · rw [hplaced, List.reverse_cons, hl.placed_eq, hl.size_eq, placements_append_cons]
    rfl
  · rw [hsymbols, hplaced, List.filterMap_cons, ← hl.symbols_eq]
    cases Placed.symbol? ⟨page, l.size page, s⟩ <;> rfl
  · rw [hsymbols]
    cases hlabel : s.label with
    | none => simpa [Placed.symbol?, hlabel] using hl.nodup
    | some name =>
      simp only [Placed.symbol?, hlabel, Option.map_some, Option.toList_some, List.singleton_append,
        List.map_cons, List.nodup_cons]
      exact ⟨not_mem_keys_of_lookup (hnew name hlabel), hl.nodup⟩

theorem agrees_foldlM {w : Widths} {rest : List (Section × Statement)} :
    ∀ {before : List (Section × Statement)} {l l' : Layout}, l.Agrees w before →
      rest.foldlM (fun l item => onLine item.2.line (l.place w item)) l = .ok l' →
      l'.Agrees w (before ++ rest) := by
  induction rest with
  | nil =>
    intro before l l' hl h
    cases h
    simpa using hl
  | cons item rest ih =>
    intro before l l' hl h
    rw [List.foldlM_cons] at h
    obtain ⟨d, hd, h⟩ := exists_ok_of_bind h
    have hr := ih (agrees_place hl (onLine_eq_ok.1 hd)) h
    simpa using hr

theorem layOut_agrees {w : Widths} {items : List (Section × Statement)} {l : Layout}
    (h : layOut w items = .ok l) : l.Agrees w items :=
  agrees_foldlM (agrees_empty w) h

/-- A list of statements that can be laid out can be laid out as far as any of them. -/
theorem layOut_of_append {w : Widths} {before rest : List (Section × Statement)} {l : Layout}
    (h : layOut w (before ++ rest) = .ok l) : ∃ l₀, layOut w before = .ok l₀ := by
  unfold layOut at h ⊢
  rw [List.foldlM_append] at h
  obtain ⟨l₀, h₀, -⟩ := exists_ok_of_bind h
  exact ⟨l₀, h₀⟩

theorem lookup_of_not_mem_keys {symbols : List (String × Symbol)} {name : String}
    (h : name ∉ symbols.map Prod.fst) : symbols.lookup name = none := by
  rw [List.lookup_eq_none_iff]
  intro entry he
  have hne : name ≠ entry.1 := fun heq => h (heq ▸ List.mem_map_of_mem he)
  simp [hne]

theorem exists_place {w : Widths} {l : Layout} {page : Section} {s : Statement} {n : Nat}
    (hlabel : ∀ name, s.label = some name → name ∉ l.symbols.map Prod.fst)
    (hsize : s.size w page = .ok n) (hfit : l.size page + n ≤ (w.of page).maxValue) :
    ∃ l', l.place w (page, s) = .ok l' := by
  obtain ⟨d, hdefine⟩ : ∃ d, l.define page s = .ok d := by
    unfold Layout.define
    cases hname : s.label with
    | none => exact ⟨_, rfl⟩
    | some name =>
      simp only [lookup_of_not_mem_keys (hlabel name hname)]
      exact ⟨_, rfl⟩
  have hnot : ¬ (w.of page).maxValue < l.size page + n := Nat.not_lt.2 hfit
  simp only [Layout.place, hdefine, hsize, bind, Except.bind, if_neg hnot]
  exact ⟨_, rfl⟩

/-- Statements can be laid out if all of them have a size, no two have the same label, and no page
overflows. -/
theorem exists_layOut {w : Widths} {items : List (Section × Statement)}
    (hitems : ∀ item ∈ items, ∃ n, item.2.size w item.1 = .ok n)
    (hlabels : ((items.map Prod.snd).filterMap Statement.label).Nodup)
    (hfit : ∀ page, extent w page items ≤ (w.of page).maxValue) :
    ∃ l, layOut w items = .ok l := by
  -- the layout so far has room for what the rest adds to it, and none of its labels
  suffices hrest : ∀ l : Layout,
      (∀ page, l.size page + extent w page items ≤ (w.of page).maxValue) →
      ((items.map Prod.snd).filterMap Statement.label ++ l.symbols.map Prod.fst).Nodup →
      ∃ l', items.foldlM (fun l item => onLine item.2.line (l.place w item)) l = .ok l' by
    refine hrest {} (fun page => ?_) (by simpa using hlabels)
    have hempty : Layout.size {} page = 0 := by cases page <;> rfl
    rw [hempty, Nat.zero_add]
    exact hfit page
  clear hfit hlabels
  induction items with
  | nil => exact fun l _ _ => ⟨l, rfl⟩
  | cons item rest ih =>
    intro l hl hnodup
    obtain ⟨page, s⟩ := item
    obtain ⟨⟨n, hsize⟩, hrest⟩ := List.forall_mem_cons.1 hitems
    have hspan := Statement.span_of_size hsize
    have hfit : l.size page + n ≤ (w.of page).maxValue := by
      have hpage := hl page
      rw [extent_cons, if_pos rfl, hspan] at hpage
      omega
    have hfresh : ∀ name, s.label = some name → name ∉ l.symbols.map Prod.fst := by
      intro name hname hmem
      rw [List.map_cons, List.filterMap_cons_some hname, List.cons_append,
        List.nodup_cons] at hnodup
      exact hnodup.1 (List.mem_append_right _ hmem)
    obtain ⟨l', hplace⟩ := exists_place hfresh hsize hfit
    obtain ⟨-, n', hsize', -, hgrown, -, hsymbols⟩ := place_cases hplace
    rw [hsize] at hsize'
    cases hsize'
    rw [List.foldlM_cons, hplace]
    refine ih hrest l' (fun q => ?_) ?_
    · have hq := hl q
      rw [extent_cons] at hq
      rw [hgrown]
      by_cases hpage : page = q
      · subst hpage
        rw [if_pos rfl, hspan] at hq
        rw [if_pos rfl]
        omega
      · rw [if_neg hpage] at hq
        rw [if_neg hpage]
        omega
    · rw [hsymbols]
      cases hname : s.label with
      | none => simpa [Placed.symbol?, hname] using hnodup
      | some name =>
        rw [List.map_cons, List.filterMap_cons_some hname] at hnodup
        simp only [Placed.symbol?, hname, Option.map_some, Option.toList_some,
          List.singleton_append, List.map_cons]
        exact (List.perm_middle.nodup_iff).2 hnodup

/-! ## Looking symbols up -/

theorem lookup_of_mem {symbols : List (String × Symbol)} {name : String} {symbol : Symbol}
    (hn : (symbols.map Prod.fst).Nodup) (hm : (name, symbol) ∈ symbols) :
    symbols.lookup name = some symbol := by
  induction symbols with
  | nil => cases hm
  | cons entry symbols ih =>
    rw [List.map_cons, List.nodup_cons] at hn
    rcases List.mem_cons.1 hm with rfl | hmem
    · simp
    · have hne : name ≠ entry.1 := by
        intro he
        exact hn.1 (he ▸ List.mem_map.2 ⟨_, hmem, rfl⟩)
      rw [List.lookup_cons, beq_false_of_ne hne]
      exact ih hn.2 hmem

/-- A symbol is the place of a statement with its label. -/
theorem Layout.Agrees.exists_placed {w : Widths} {items : List (Section × Statement)} {l : Layout}
    {name : String} {symbol : Symbol} (hl : l.Agrees w items)
    (h : l.symbols.lookup name = some symbol) :
    ∃ p ∈ l.placed, p.symbol? = some (name, symbol) := by
  obtain ⟨a, b, hsplit, -⟩ := List.lookup_eq_some_iff.1 h
  have hmem : (name, symbol) ∈ l.symbols := by
    rw [hsplit]
    simp
  rw [hl.symbols_eq] at hmem
  exact List.mem_filterMap.1 hmem

/-- A label stands for the place of its statement. -/
theorem Layout.Agrees.lookup {w : Widths} {before after : List (Section × Statement)} {l : Layout}
    {page : Section} {s : Statement} {name : String}
    (hl : l.Agrees w (before ++ (page, s) :: after)) (hs : s.label = some name) :
    l.symbols.lookup name = some ⟨page, extent w page before, s.line⟩ := by
  apply lookup_of_mem hl.nodup
  rw [hl.symbols_eq, List.mem_filterMap]
  refine ⟨⟨page, extent w page before, s⟩, ?_, by simp [Placed.symbol?, hs]⟩
  rw [← List.mem_reverse, hl.placed_eq, placements_append_cons]
  simp

/-- The symbols are the labels of the statements, last first. -/
theorem Layout.Agrees.keys {w : Widths} {items : List (Section × Statement)} {l : Layout}
    (hl : l.Agrees w items) :
    l.symbols.map Prod.fst = ((items.map Prod.snd).filterMap Statement.label).reverse := by
  have hs : (items.map Prod.snd) = (l.placed.map Placed.statement).reverse := by
    rw [← placements_item w items, ← hl.placed_eq, List.map_map, List.map_reverse]
    rfl
  rw [hs, hl.symbols_eq, List.filterMap_reverse, List.reverse_reverse, List.map_filterMap,
    List.filterMap_map]
  congr 1
  funext p
  cases h : p.statement.label <;> simp [Placed.symbol?, h]

end Assembly

end ByteMachine
