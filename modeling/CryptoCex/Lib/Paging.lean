import Mathlib.Data.List.Chain
import Mathlib.Data.List.Sort
import Mathlib.Order.Basic
import Mathlib.Tactic.Common

/-!
# Paging through a list that grows

A reader asks for page after page of a list, in falling order of a key, each page below the last
key of the one before; a page without elements ends it. Between two pages the list grows. The
elements come in streams: one that is new has a larger key than every older one of its stream
(`Grown`), and between streams there is no order.

A reader can miss an element, one that comes in where the reader has been already. `Reading` says
what: nothing of what was there when it began, and of no stream anything below what it has read.
`Reading.grow` and `Reading.turn` keep it.
-/

namespace Paging

variable {α K S : Type*} [LinearOrder K]

/-- What is below the cursor, in falling order of the key. -/
def below (key : α → K) (table : List α) (cursor : Option K) : List α :=
  (table.filter fun a => cursor.all fun c => decide (key a < c)).insertionSort
    fun a b => key b ≤ key a

/-- The first `L` of what is below the cursor. -/
def page (key : α → K) (L : ℕ) (table : List α) (cursor : Option K) : List α :=
  (below key table cursor).take L

variable {key : α → K} {stream : α → S} {L : ℕ} {table table' : List α} {cursor : Option K}

/-- What is below a cursor is in the table with a smaller key. -/
theorem mem_below {a : α} :
    a ∈ below key table cursor ↔ a ∈ table ∧ ∀ c, cursor = some c → key a < c := by
  unfold below
  rw [(List.perm_insertionSort _ _).mem_iff, List.mem_filter]
  cases cursor with
  | none => simp
  | some c => simp

theorem mem_page {a : α} (h : a ∈ page key L table cursor) :
    a ∈ table ∧ ∀ c, cursor = some c → key a < c :=
  mem_below.mp (List.mem_of_mem_take h)

theorem below_falls (hkeys : table.Pairwise fun a b => key a ≠ key b) (cursor : Option K) :
    (below key table cursor).Pairwise fun a b => key b < key a := by
  unfold below
  have hne := (hkeys.sublist List.filter_sublist).perm
    (List.perm_insertionSort (fun a b => key b ≤ key a)
      (table.filter fun a => cursor.all fun c => decide (key a < c))).symm
    (fun {_ _} h => Ne.symm h)
  have hle := List.pairwise_insertionSort (fun a b => key b ≤ key a)
    (table.filter fun a => cursor.all fun c => decide (key a < c))
  exact hle.imp₂ (fun a b hab hba => lt_of_le_of_ne hab hba.symm) hne

/-- The keys of a page fall. -/
theorem page_falls (hkeys : table.Pairwise fun a b => key a ≠ key b) :
    (page key L table cursor).Pairwise fun a b => key b < key a :=
  (below_falls hkeys cursor).sublist (List.take_sublist _ _)

/-- What is below the cursor and not on the page comes behind the page, which is full. -/
theorem behind_page (hkeys : table.Pairwise fun a b => key a ≠ key b) (hL : 0 < L) {a : α}
    (ha : a ∈ table) (hbelow : ∀ c, cursor = some c → key a < c)
    (hnot : a ∉ page key L table cursor) :
    page key L table cursor ≠ [] ∧ ∀ b ∈ page key L table cursor, key a < key b := by
  have hmem := mem_below.mpr ⟨ha, hbelow⟩
  have hfalls := below_falls hkeys cursor
  unfold page at hnot ⊢
  constructor
  · intro hnil
    rcases List.take_eq_nil_iff.mp hnil with hzero | hempty
    · omega
    · rw [hempty] at hmem
      cases hmem
  · -- what is below the cursor is the page and, behind it, the rest
    rw [← List.take_append_drop L (below key table cursor)] at hmem hfalls
    rcases List.mem_append.mp hmem with htake | hdrop
    · exact absurd htake hnot
    · intro b hb
      exact (List.pairwise_append.mp hfalls).2.2 b hb a hdrop

/-! ## Neighbours -/

/-- What links the neighbours of a rising list links two elements with nothing between them. -/
theorem linked_of_isChain {link : α → α → Prop} {l : List α} (hchain : l.IsChain link)
    (hrises : l.Pairwise fun a b => key a < key b) {a b : α} (ha : a ∈ l) (hb : b ∈ l)
    (hab : key a < key b) (hnone : ∀ c ∈ l, key a < key c → ¬key c < key b) : link a b := by
  induction l with
  | nil => cases ha
  | cons x l ih =>
    rw [List.pairwise_cons] at hrises
    rcases List.mem_cons.mp ha with rfl | ha'
    · -- the next element is `b`, as nothing is between
      cases l with
      | nil =>
        rcases List.mem_cons.mp hb with rfl | hb'
        · exact absurd hab (lt_irrefl _)
        · cases hb'
      | cons y l =>
        rcases List.mem_cons.mp hb with rfl | hb'
        · exact absurd hab (lt_irrefl _)
        · rcases List.mem_cons.mp hb' with rfl | hb'
          · exact (List.isChain_cons_cons.mp hchain).1
          · have hay := hrises.1 y List.mem_cons_self
            have hyb := (List.pairwise_cons.mp hrises.2).1 b hb'
            exact absurd hyb (hnone y (List.mem_cons_of_mem _ List.mem_cons_self) hay)
    · have hb' : b ∈ l := by
        rcases List.mem_cons.mp hb with rfl | hb'
        · exact absurd (hrises.1 a ha') hab.not_gt
        · exact hb'
      exact ih hchain.tail hrises.2 ha' hb' fun c hc => hnone c (List.mem_cons_of_mem _ hc)

/-- The neighbours of a falling list are linked if two elements with nothing between them are. -/
theorem isChain_of_linked {link : α → α → Prop} {l : List α}
    (hfalls : l.Pairwise fun a b => key b < key a)
    (hlink : ∀ a ∈ l, ∀ b ∈ l, key b < key a → (∀ c ∈ l, key b < key c → ¬key c < key a) →
      link a b) : l.IsChain link := by
  induction l with
  | nil => exact List.isChain_nil
  | cons x l ih =>
    rw [List.pairwise_cons] at hfalls
    -- the tail: a neighbour of the head's is none of its own
    have htail : l.IsChain link := by
      refine ih hfalls.2 ?_
      intro a ha b hb hba hnone
      refine hlink a (List.mem_cons_of_mem _ ha) b (List.mem_cons_of_mem _ hb) hba ?_
      intro c hc hbc hca
      rcases List.mem_cons.mp hc with rfl | hc
      · exact absurd (hfalls.1 a ha) hca.not_gt
      · exact hnone c hc hbc hca
    -- and the head is linked to the first of the tail, as nothing lies between
    cases l with
    | nil => exact List.isChain_singleton _
    | cons y l =>
      refine List.isChain_cons_cons.mpr ⟨?_, htail⟩
      refine hlink x List.mem_cons_self y (List.mem_cons_of_mem _ List.mem_cons_self)
        (hfalls.1 y List.mem_cons_self) ?_
      intro c hc hyc hcx
      rcases List.mem_cons.mp hc with rfl | hc
      · exact absurd hcx (lt_irrefl _)
      · rcases List.mem_cons.mp hc with rfl | hc
        · exact absurd hyc (lt_irrefl _)
        · exact absurd ((List.pairwise_cons.mp hfalls.2).1 c hc) hyc.not_gt

/-! ## The reader -/

/-- A client that pages through a list. -/
structure Pager (α K : Type*) where
  cursor : Option K
  read : List α
  done : Bool

/-- Before the first page. -/
def Pager.fresh : Pager α K := ⟨none, [], false⟩

/-- The reader after this page. -/
def Pager.turn (key : α → K) (rows : List α) (r : Pager α K) : Pager α K where
  cursor := rows.getLast?.map key
  read := r.read ++ rows
  done := rows.getLast?.isNone

/-- The reader is past the key: no later page can hold it. -/
def Pager.Passed (r : Pager α K) (k : K) : Prop :=
  r.done = true ∨ ∃ c, r.cursor = some c ∧ c ≤ k

/-- The list has grown: what is new in a stream comes behind all of it. -/
structure Grown (key : α → K) (stream : α → S) (table table' : List α) : Prop where
  mem : ∀ a ∈ table, a ∈ table'
  behind : ∀ a ∈ table', a ∉ table → ∀ b ∈ table, stream b = stream a → key b < key a

/-- A table has grown from itself. -/
theorem Grown.refl (key : α → K) (stream : α → S) (table : List α) :
    Grown key stream table table where
  mem := fun _ ha => ha
  behind := fun _ ha hnew => absurd ha hnew

/-- What a reader has read of the list `table`, which was `began` when it began. -/
structure Reading (key : α → K) (stream : α → S) (began table : List α) (r : Pager α K) :
    Prop where
  kept : ∀ a ∈ began, a ∈ table
  falls : r.read.Pairwise fun a b => key b < key a
  mem : ∀ a ∈ r.read, a ∈ table
  last : r.done = false → r.read.getLast?.map key = r.cursor
  missed : ∀ a ∈ table, r.Passed (key a) → a ∉ r.read →
    a ∉ began ∧ ∀ b ∈ r.read, stream b = stream a → key b < key a

namespace Reading

variable {began : List α} {r : Pager α K}

/-- A reading that begins has read nothing. -/
theorem fresh (key : α → K) (stream : α → S) (table : List α) :
    Reading key stream table table .fresh where
  kept := fun _ ha => ha
  falls := .nil
  mem := by
    intro a ha
    cases ha
  last := fun _ => rfl
  missed := by
    rintro a _ (hdone | ⟨c, hc, _⟩)
    · cases hdone
    · cases hc

/-- What was read stays read while the table grows. -/
theorem grow (h : Reading key stream began table r) (hgrown : Grown key stream table table') :
    Reading key stream began table' r where
  kept := fun a ha => hgrown.mem a (h.kept a ha)
  falls := h.falls
  mem := fun a ha => hgrown.mem a (h.mem a ha)
  last := h.last
  missed := by
    intro a ha hpassed hnot
    by_cases hold : a ∈ table
    · exact h.missed a hold hpassed hnot
    · -- it is new, and so behind all of its stream
      refine ⟨fun hbegan => hold (h.kept a hbegan), ?_⟩
      intro b hb hstream
      exact hgrown.behind a ha hold b (h.mem b hb) hstream

/-- The cursor is not above what was read. -/
theorem cursor_le (h : Reading key stream began table r) (hdone : r.done = false) {a : α}
    (ha : a ∈ r.read) : ∃ c, r.cursor = some c ∧ c ≤ key a := by
  have hne : r.read ≠ [] := List.ne_nil_of_mem ha
  have hlast := h.last hdone
  rw [List.getLast?_eq_some_getLast hne, Option.map_some] at hlast
  refine ⟨_, hlast.symm, ?_⟩
  have hfalls := h.falls
  rw [← List.dropLast_append_getLast hne] at hfalls ha
  rcases List.mem_append.mp ha with hinit | hend
  · exact ((List.pairwise_append.mp hfalls).2.2 a hinit _ (List.mem_singleton_self _)).le
  · rw [List.mem_singleton.mp hend]

/-- The reader is past everything it has read. -/
theorem passed (h : Reading key stream began table r) {a : α} (ha : a ∈ r.read) {k : K}
    (hle : key a ≤ k) : r.Passed k := by
  cases hdone : r.done with
  | true => exact .inl hdone
  | false =>
    rcases h.cursor_le hdone ha with ⟨c, hc, hca⟩
    exact .inr ⟨c, hc, hca.trans hle⟩

/-- Between two elements of a stream that were read, all of the stream were read. -/
theorem between (h : Reading key stream began table r) {a b c : α} (ha : a ∈ r.read)
    (hb : b ∈ r.read) (hc : c ∈ table) (hstream : stream b = stream c) (hac : key a ≤ key c)
    (hcb : key c ≤ key b) : c ∈ r.read := by
  by_contra hnot
  have hlt := (h.missed c hc (h.passed ha hac) hnot).2 b hb hstream
  exact absurd hlt hcb.not_gt

/-- The next page. -/
theorem turn (h : Reading key stream began table r)
    (hkeys : table.Pairwise fun a b => key a ≠ key b) (hL : 0 < L) (hdone : r.done = false) :
    Reading key stream began table (r.turn key (page key L table r.cursor)) where
  kept := h.kept
  falls := by
    refine List.pairwise_append.mpr ⟨h.falls, page_falls hkeys, ?_⟩
    -- the cursor divides what was read from the page
    intro a ha b hb
    rcases h.cursor_le hdone ha with ⟨c, hc, hle⟩
    exact ((mem_page hb).2 c hc).trans_le hle
  mem := by
    intro a ha
    rcases List.mem_append.mp ha with ha | ha
    · exact h.mem a ha
    · exact (mem_page ha).1
  last := by
    intro hmore
    cases hlast : (page key L table r.cursor).getLast? with
    | none =>
      have hend : (page key L table r.cursor).getLast?.isNone = false := hmore
      rw [hlast] at hend
      cases hend
    | some b =>
      show (r.read ++ page key L table r.cursor).getLast?.map key =
        (page key L table r.cursor).getLast?.map key
      rw [List.getLast?_append, hlast]
      rfl
  missed := by
    intro a ha hpassed hnot
    have hread : a ∉ r.read := fun hmem => hnot (List.mem_append_left _ hmem)
    have hpage : a ∉ page key L table r.cursor := fun hmem => hnot (List.mem_append_right _ hmem)
    -- what is passed now was passed before, for the page holds or precedes all the rest
    have hbefore : ∃ c, r.cursor = some c ∧ c ≤ key a := by
      by_contra hnone
      have hbelow : ∀ c, r.cursor = some c → key a < c :=
        fun c hc => lt_of_not_ge fun hle => hnone ⟨c, hc, hle⟩
      rcases behind_page hkeys hL ha hbelow hpage with ⟨hne, hbehind⟩
      have hlast := List.getLast?_eq_some_getLast hne
      rcases hpassed with hend | ⟨c, hc, hle⟩
      · have hisNone : (page key L table r.cursor).getLast?.isNone = true := hend
        rw [hlast] at hisNone
        cases hisNone
      · have hcursor : (page key L table r.cursor).getLast?.map key = some c := hc
        rw [hlast, Option.map_some] at hcursor
        have hlt := hbehind _ (List.getLast_mem hne)
        rw [Option.some.inj hcursor] at hlt
        exact absurd hlt hle.not_gt
    rcases h.missed a ha (.inr hbefore) hread with ⟨hbegan, hold⟩
    refine ⟨hbegan, ?_⟩
    intro b hb hstream
    rcases List.mem_append.mp hb with hb | hb
    · exact hold b hb hstream
    · rcases hbefore with ⟨c, hc, hle⟩
      exact ((mem_page hb).2 c hc).trans_le hle

end Reading

end Paging
