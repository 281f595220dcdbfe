import Mathlib
/-!
# Pool and dataset names (`zfs_namecheck.c`)

The kernel checks every name a request carries before the lower layers see
it (`zfsdev_ioctl`, zfs_ioctl.c:5126-5140). A name is a C string: the
characters before the first NUL of its buffer (`cstr`). Characters are
modelled as `Char`; every C `char` value is one, with the same order.

* `validChar`: letters, digits and `-_.: ` (zfs_namecheck.c:49-56).
* `datasetNamecheck`: `[component][/]*[component][@component]`, each
  component non-empty and made of valid characters or `%`, shorter than
  `MAXNAMELEN` (zfs_namecheck.c:133-250). The component loop is
  `datasetNamecheckLoop`, which carries the character before the component
  (the `end[-1]` the trailing-slash test reads) and `found_snapshot`.
* `poolNamecheck`: valid characters, a leading letter, not `mirror` or
  `raidz`, and not disk-like `c[0-9]...` (zfs_namecheck.c:298-365).

`HAVE_KOBJ_NAME_LEN` belongs to old Linux kernels and is not defined here, so
both checks use the `strlen >= MAXNAMELEN` bound. The kernel passes `NULL`
for `why` and `what`; the model still returns the error the source would
store there.

Results:
* `dataset_namecheck_grammar`: `datasetNamecheck` accepts exactly the names
  of the grammar `DatasetName` shorter than `MAXNAMELEN`. It refuses any
  other name for the rule its first offending character breaks, as the
  left-to-right reading `nameScan` names it (`datasetNamecheck_eq_nameRun`:
  the component loop reports what the reading does, though it checks a
  component's characters only at its end). The byte before the name, which
  `end[-1]` would read for an empty first component, never matters.
* `poolNamecheck_eq_ok`: what `pool_namecheck` accepts, clause by clause.
* `length_cstr_set_last`: after the terminating NUL is forced into the last
  byte of a buffer, the C string is shorter than the buffer, so the checks
  never read past it.
-/
namespace ZfsOsx.Ioctl

/-- `MAXNAMELEN` (sys/param.h). -/
def maxNameLen : Nat := 256

/-- `namecheck_err_t` (zfs_namecheck.h:33-44), with the character that
`NAME_ERR_INVALCHAR` reports in `what`. `NAME_ERR_NO_AT` belongs to
`permset_namecheck` only. -/
inductive NamecheckErr
  | leadingSlash
  | emptyComponent
  | trailingSlash
  | invalchar (what : Char)
  | multipleAt
  | noletter
  | reserved
  | disklike
  | toolong
  deriving DecidableEq, Repr

/-- The C string held by a buffer: its characters up to the first NUL. -/
def cstr (buf : List Char) : List Char := buf.takeWhile (· ≠ '\x00')

/-- `valid_char` (zfs_namecheck.c:49-56). -/
def validChar (c : Char) : Bool :=
  ('a' ≤ c && c ≤ 'z') || ('A' ≤ c && c ≤ 'Z') || ('0' ≤ c && c ≤ '9') ||
    c == '-' || c == '_' || c == '.' || c == ':' || c == ' '

/-- A character that ends a dataset name component, beside the NUL. -/
@[grind] def isCompEnd (c : Char) : Bool := c == '/' || c == '@'

/-- The checks `dataset_namecheck` makes on a component `comp` once it has
found its end `e` (`none` for the NUL): the component is not empty, and
its characters are valid or `%` (zfs_namecheck.c:197-222). -/
def checkComp (comp : List Char) (e : Option Char) (foundSnapshot : Bool) :
    Except NamecheckErr Unit :=
  if comp = [] then .error (if e = some '@' ∧ foundSnapshot then .multipleAt else .emptyComponent)
  else match comp.find? fun c => !validChar c && c != '%' with
    | some c => .error (.invalchar c)
    | none => .ok ()

/-- The component loop of `dataset_namecheck` (zfs_namecheck.c:180-249).
`comp` is the part of the current component read so far (the scan from
`loc` to `end`), and `prev` the character before it, which `end[-1]`
reads when the component is empty. -/
@[grind] def datasetNamecheckLoop (prev : Char) (foundSnapshot : Bool) (comp : List Char) :
    List Char → Except NamecheckErr Unit
  | [] =>
    -- `*end == '\0'`
    if comp.getLast?.getD prev = '/' then .error .trailingSlash
    else checkComp comp none foundSnapshot
  | c :: rest =>
    if isCompEnd c then do
      checkComp comp (some c) foundSnapshot
      if c = '@' ∧ foundSnapshot then .error .multipleAt
      else if c = '/' ∧ (foundSnapshot || c == '@') then .error .trailingSlash
      else datasetNamecheckLoop c (foundSnapshot || c == '@') [] rest
    else datasetNamecheckLoop prev foundSnapshot (comp ++ [c]) rest

/-- `dataset_namecheck` (zfs_namecheck.c:133-250). -/
def datasetNamecheck (path : List Char) : Except NamecheckErr Unit :=
  if maxNameLen ≤ path.length then .error .toolong
  else if path.head? = some '/' then .error .leadingSlash
  else if path = [] then .error .emptyComponent
  -- `path[-1]` is never read: the first component ends at NUL only if it is
  -- not empty
  else datasetNamecheckLoop '\x00' false [] path

/-! ## Dataset names against their grammar -/

/-- A character a component may hold: a valid one or `%`
(zfs_namecheck.c:207). -/
def compChar (c : Char) : Bool := validChar c || c == '%'

/-- A component of a dataset name: non-empty, of component characters. -/
def IsComp (comp : List Char) : Prop := comp ≠ [] ∧ ∀ c ∈ comp, compChar c = true

/-- The grammar `C ('/' C)* ('@' C)?` of the comment above
`dataset_namecheck` (zfs_namecheck.c:119-131), each `C` a component. -/
inductive DatasetName : List Char → Prop
  | comp {c : List Char} : IsComp c → DatasetName c
  | snap {c s : List Char} : IsComp c → IsComp s → DatasetName (c ++ '@' :: s)
  | slash {c r : List Char} : IsComp c → DatasetName r → DatasetName (c ++ '/' :: r)

/-- No separator among the characters of `l`. -/
def NoSep (l : List Char) : Prop := ∀ c ∈ l, isCompEnd c = false

theorem compChar_of_isCompEnd {c : Char} (h : isCompEnd c = true) : compChar c = false := by
  simp only [isCompEnd, Bool.or_eq_true, beq_iff_eq] at h
  rcases h with rfl | rfl <;> decide

theorem isCompEnd_iff {c : Char} : isCompEnd c = true ↔ c = '/' ∨ c = '@' := by
  simp [isCompEnd]

theorem IsComp.noSep {comp : List Char} (h : IsComp comp) : NoSep comp := by
  intro c hc
  cases hs : isCompEnd c
  · rfl
  · have := compChar_of_isCompEnd hs
    rw [h.2 c hc] at this
    contradiction

theorem noSep_append_singleton {comp : List Char} {c : Char} (h : NoSep comp)
    (hc : isCompEnd c = false) : NoSep (comp ++ [c]) := by
  intro x hx
  rcases List.mem_append.1 hx with hx | hx
  · exact h x hx
  · rw [List.mem_singleton.1 hx]
    exact hc

theorem not_isComp_of_sep {comp r : List Char} {c : Char} (hc : isCompEnd c = true) :
    ¬IsComp (comp ++ c :: r) := fun h => by
  have := h.2 c (by simp)
  rw [compChar_of_isCompEnd hc] at this
  contradiction

/-- A name cut at its first separator is cut in one way only. -/
theorem sep_split_unique {a b r s : List Char} {x y : Char} (ha : NoSep a) (hb : NoSep b)
    (hx : isCompEnd x = true) (hy : isCompEnd y = true) (h : a ++ x :: r = b ++ y :: s) :
    a = b ∧ x = y ∧ r = s := by
  induction a generalizing b with
  | nil =>
    cases b with
    | nil => simpa using h
    | cons d b =>
      obtain ⟨rfl, -⟩ := List.cons.inj h
      rw [hb x List.mem_cons_self] at hx
      contradiction
  | cons d a ih =>
    cases b with
    | nil =>
      obtain ⟨rfl, -⟩ := List.cons.inj h
      rw [ha d List.mem_cons_self] at hy
      contradiction
    | cons d' b =>
      simp only [List.cons_append, List.cons.injEq] at h
      obtain ⟨rfl, h⟩ := h
      obtain ⟨rfl, rfl, rfl⟩ := ih (fun c hc => ha c (List.mem_cons_of_mem _ hc))
        (fun c hc => hb c (List.mem_cons_of_mem _ hc)) h
      exact ⟨rfl, rfl, rfl⟩

/-- Without a separator a name is one component. -/
theorem datasetName_iff_of_noSep {l : List Char} (h : NoSep l) : DatasetName l ↔ IsComp l := by
  refine ⟨fun hl => ?_, DatasetName.comp⟩
  cases hl with
  | comp hc => exact hc
  | snap => exact absurd (h '@' (by simp)) (by decide)
  | slash => exact absurd (h '/' (by simp)) (by decide)

/-- A name whose first separator follows `comp`: `comp` is a component, and
after a `/` comes a name, after the `@` a component. -/
theorem datasetName_sep_iff {comp r : List Char} {c : Char} (hcomp : NoSep comp)
    (hc : isCompEnd c = true) : DatasetName (comp ++ c :: r) ↔
      IsComp comp ∧ ((c = '/' ∧ DatasetName r) ∨ (c = '@' ∧ IsComp r)) := by
  constructor
  · intro h
    generalize hl : comp ++ c :: r = l at h
    cases h with
    | comp hl' => exact absurd (hl ▸ hl') (not_isComp_of_sep hc)
    | snap hc' hs =>
      obtain ⟨rfl, rfl, rfl⟩ := sep_split_unique hcomp hc'.noSep hc (by decide) hl
      exact ⟨hc', .inr ⟨rfl, hs⟩⟩
    | slash hc' hr =>
      obtain ⟨rfl, rfl, rfl⟩ := sep_split_unique hcomp hc'.noSep hc (by decide) hl
      exact ⟨hc', .inl ⟨rfl, hr⟩⟩
  · rintro ⟨hcomp, ⟨rfl, hr⟩ | ⟨rfl, hr⟩⟩
    exacts [.slash hcomp hr, .snap hcomp hr]

/-- A name starts with a component character. -/
theorem DatasetName.head {l : List Char} (h : DatasetName l) :
    ∃ c, l.head? = some c ∧ compChar c = true := by
  -- every form starts with a non-empty component
  have hc : ∃ comp w, IsComp comp ∧ l = comp ++ w := by
    cases h with
    | comp hc => exact ⟨_, [], hc, by simp⟩
    | snap hc _ => exact ⟨_, _, hc, rfl⟩
    | slash hc _ => exact ⟨_, _, hc, rfl⟩
  obtain ⟨comp, w, ⟨hne, hall⟩, rfl⟩ := hc
  obtain ⟨c, comp, rfl⟩ := List.exists_cons_of_ne_nil hne
  exact ⟨c, rfl, hall c List.mem_cons_self⟩

/-- `checkComp` passes exactly a component. -/
theorem checkComp_eq_ok {comp : List Char} {e : Option Char} {fs : Bool} :
    checkComp comp e fs = .ok () ↔ IsComp comp := by
  unfold checkComp IsComp
  by_cases h0 : comp = []
  · simp [h0]
  rw [if_neg h0]
  cases hf : comp.find? fun c => !validChar c && c != '%' with
  | some c =>
    have hc := List.find?_some hf
    have hmem := List.mem_of_find?_eq_some hf
    simp only [reduceCtorEq, false_iff, not_and, not_forall]
    exact fun _ => ⟨c, hmem, by simpa [compChar] using hc⟩
  | none =>
    simp only [List.find?_eq_none, Bool.and_eq_true, Bool.not_eq_eq_eq_not, Bool.not_true,
      bne_iff_ne, ne_eq, not_and, Decidable.not_not] at hf
    refine iff_of_true rfl ⟨h0, fun c hc => ?_⟩
    by_cases hv : validChar c = true
    · simp [compChar, hv]
    · simp [compChar, hf c hc (by simpa using hv)]

section Loop

variable (prev : Char)

/-- The component loop at the end of the name accepts a last component. -/
theorem datasetNamecheckLoop_nil_ok {fs : Bool} {comp : List Char} (hcomp : NoSep comp) :
    datasetNamecheckLoop prev fs comp [] = .ok () ↔ IsComp comp := by
  rw [datasetNamecheckLoop]
  by_cases h0 : comp = []
  · subst h0
    split <;> simp [checkComp_eq_ok, IsComp]
  -- `end[-1]` is the component's last character, not a `/`
  obtain ⟨l, hl⟩ : ∃ l, comp.getLast? = some l := Option.isSome_iff_exists.1
    (by simpa [List.getLast?_isSome] using h0)
  have hls : l ≠ '/' := fun h => by
    have := hcomp l (List.mem_of_getLast? hl)
    rw [h] at this
    contradiction
  rw [hl, Option.getD_some, if_neg hls, checkComp_eq_ok]

/-- After the `@`, the loop accepts exactly one more component. -/
theorem datasetNamecheckLoop_snap_ok (rest : List Char) :
    ∀ (prev : Char) (comp : List Char), NoSep comp →
      (datasetNamecheckLoop prev true comp rest = .ok () ↔ IsComp (comp ++ rest)) := by
  induction rest with
  | nil => exact fun prev comp hcomp => by rw [List.append_nil, datasetNamecheckLoop_nil_ok prev hcomp]
  | cons c rest ih =>
    intro prev comp hcomp
    rw [datasetNamecheckLoop]
    by_cases hc : isCompEnd c = true
    · -- a second `@` or a `/` in the snapshot name: refused either way
      rw [if_pos hc, iff_false_intro (not_isComp_of_sep hc), iff_false]
      rcases isCompEnd_iff.1 hc with rfl | rfl <;>
        cases checkComp comp _ true <;> simp [bind, Except.bind]
    · rw [if_neg hc, ih prev _ (noSep_append_singleton hcomp (by simpa using hc)),
        List.append_assoc, List.singleton_append]

/-- Before the `@`, the loop accepts exactly the rest of a name. -/
theorem datasetNamecheckLoop_ok (rest : List Char) :
    ∀ (prev : Char) (comp : List Char), NoSep comp →
      (datasetNamecheckLoop prev false comp rest = .ok () ↔ DatasetName (comp ++ rest)) := by
  induction rest with
  | nil =>
    intro prev comp hcomp
    rw [List.append_nil, datasetNamecheckLoop_nil_ok prev hcomp, datasetName_iff_of_noSep hcomp]
  | cons c rest ih =>
    intro prev comp hcomp
    rw [datasetNamecheckLoop]
    by_cases hc : isCompEnd c = true
    · rw [if_pos hc, datasetName_sep_iff hcomp hc]
      cases hchk : checkComp comp (some c) false with
      | error e =>
        have : ¬IsComp comp := fun h => by
          rw [checkComp_eq_ok.2 h] at hchk
          contradiction
        simp [bind, Except.bind, this]
      | ok u =>
        have hcomp' : IsComp comp := checkComp_eq_ok.1 hchk
        -- a `/` goes on with a name, the `@` with the snapshot component
        rcases isCompEnd_iff.1 hc with rfl | rfl
        · simp [bind, Except.bind, hcomp', ih '/' [] (fun _ h => absurd h List.not_mem_nil)]
        · simp [bind, Except.bind, hcomp',
            datasetNamecheckLoop_snap_ok rest '@' [] (fun _ h => absurd h List.not_mem_nil)]
    · rw [if_neg hc, ih prev _ (noSep_append_singleton hcomp (by simpa using hc)),
        List.append_assoc, List.singleton_append]

end Loop

/-! ## Which rule a refused name breaks -/

/-- Where a reading of a dataset name from the left stands: before its first
character, inside a component, or just after a separator; `snap` says
whether the `@` is read. -/
inductive NamePos
  | start
  | inComp (snap : Bool)
  | afterSep (snap : Bool)
  deriving DecidableEq, Repr

def NamePos.snap : NamePos → Bool
  | .start => false
  | .inComp s => s
  | .afterSep s => s

/-- The next character `c` of a name read at `q`: the position after it, or
the rule of the grammar it breaks, under the error `dataset_namecheck` has
for that rule. -/
def nameStep (q : NamePos) (c : Char) : Except NamecheckErr NamePos :=
  if compChar c then .ok (.inComp q.snap)
  else if c = '/' then
    match q with
    | .start => .error .leadingSlash
    | .afterSep _ => .error .emptyComponent
    | .inComp snap => if snap then .error .trailingSlash else .ok (.afterSep false)
  else if c = '@' then
    match q with
    | .start => .error .emptyComponent
    | .afterSep snap => .error (if snap then .multipleAt else .emptyComponent)
    | .inComp snap => if snap then .error .multipleAt else .ok (.afterSep true)
  else .error (.invalchar c)

/-- The end of a name read up to `q`. -/
def nameEnd : NamePos → Except NamecheckErr Unit
  | .start => .error .emptyComponent
  | .inComp _ => .ok ()
  | .afterSep snap => .error (if snap then .emptyComponent else .trailingSlash)

/-- The characters `l` read from `q`, up to the first that breaks a rule. -/
@[grind] def nameScan (q : NamePos) : List Char → Except NamecheckErr NamePos
  | [] => .ok q
  | c :: l =>
    match nameStep q c with
    | .ok q' => nameScan q' l
    | .error e => .error e

/-- A whole name read from `q`. -/
def nameRun (q : NamePos) (l : List Char) : Except NamecheckErr Unit :=
  match nameScan q l with
  | .ok q' => nameEnd q'
  | .error e => .error e

/-- A prefix of some dataset name. -/
def NamePrefix (u : List Char) : Prop := ∃ w, DatasetName (u ++ w)

theorem nameRun_cons (q : NamePos) (c : Char) (l : List Char) :
    nameRun q (c :: l) = match nameStep q c with
      | .ok q' => nameRun q' l
      | .error e => .error e := by
  rw [nameRun, nameScan]
  cases nameStep q c <;> rfl

theorem nameStep_of_compChar {c : Char} (h : compChar c = true) (q : NamePos) :
    nameStep q c = .ok (.inComp q.snap) := by
  simp [nameStep, h]

theorem nameStep_invalchar {c : Char} (h : compChar c = false) (hs : isCompEnd c = false)
    (q : NamePos) : nameStep q c = .error (.invalchar c) := by
  have hs' : c ≠ '/' ∧ c ≠ '@' := by simpa [isCompEnd] using hs
  simp [nameStep, h, hs'.1, hs'.2]

/-- The position of the component loop: at the start, just after a
separator, or inside a component. -/
def loopPos (prev : Char) (fs : Bool) (comp : List Char) : NamePos :=
  if comp = [] then (if isCompEnd prev then .afterSep fs else .start) else .inComp fs

/-- `checkComp` on a component read up to a separator or the end: the
first character no component may hold, or the empty component. -/
theorem checkComp_eq (comp : List Char) (e : Option Char) (fs : Bool) :
    checkComp comp e fs =
      if comp = [] then .error (if e = some '@' ∧ fs then .multipleAt else .emptyComponent)
      else match comp.find? fun c => !compChar c with
        | some c => .error (.invalchar c)
        | none => .ok () := by
  have hp : (fun c => !validChar c && c != '%') = fun c => !compChar c := by
    funext c
    simp [compChar, bne]
  rw [checkComp, hp]

/-- The component loop reads as `nameRun`, except that it reports the first
character no component may hold when the component ends rather than when it
reads it: nothing between can be refused. The start is never followed by a
`/` here, as `dataset_namecheck` refuses a leading slash before the loop. -/
theorem datasetNamecheckLoop_eq_nameRun (rest : List Char) :
    ∀ (prev : Char) (fs : Bool) (comp : List Char), NoSep comp →
      (comp = [] → (prev = '\x00' ∧ fs = false ∧ rest.head? ≠ some '/') ∨
        (isCompEnd prev = true ∧ fs = (prev == '@'))) →
      datasetNamecheckLoop prev fs comp rest =
        match comp.find? fun c => !compChar c with
        | some c => .error (.invalchar c)
        | none => nameRun (loopPos prev fs comp) rest := by
  induction rest with
  | nil =>
    intro prev fs comp hcomp hprev
    rw [datasetNamecheckLoop]
    by_cases h0 : comp = []
    · subst h0
      rcases hprev rfl with ⟨rfl, rfl, -⟩ | ⟨hs, rfl⟩
      · decide
      · rcases isCompEnd_iff.1 hs with rfl | rfl <;> decide
    obtain ⟨l, hl⟩ : ∃ l, comp.getLast? = some l := Option.isSome_iff_exists.1
      (by simpa [List.getLast?_isSome] using h0)
    have hls : l ≠ '/' := fun h => by
      have := hcomp l (List.mem_of_getLast? hl)
      rw [h] at this
      contradiction
    rw [hl, Option.getD_some, if_neg hls, checkComp_eq, if_neg h0, loopPos, if_neg h0]
    cases comp.find? fun c => !compChar c <;> rfl
  | cons c rest ih =>
    intro prev fs comp hcomp hprev
    rw [datasetNamecheckLoop]
    by_cases hc : isCompEnd c = true
    · rw [if_pos hc, checkComp_eq]
      by_cases h0 : comp = []
      · -- an empty component: refused at its separator, as `nameStep` refuses it
        subst h0
        rw [if_pos rfl]
        rcases hprev rfl with ⟨rfl, rfl, hhead⟩ | ⟨hs, rfl⟩
        · have hat : c = '@' := (isCompEnd_iff.1 hc).resolve_left fun h => hhead (by simp [h])
          subst hat
          rfl
        · rcases isCompEnd_iff.1 hs with rfl | rfl <;> rcases isCompEnd_iff.1 hc with rfl | rfl <;>
            rfl
      rw [if_neg h0]
      cases hf : comp.find? fun c => !compChar c with
      | some x => rfl
      | none =>
        -- the component passes; the separator decides
        rw [loopPos, if_neg h0, nameRun_cons]
        have ih' := fun prev fs => ih prev fs [] (fun _ h => absurd h List.not_mem_nil)
        rcases isCompEnd_iff.1 hc with rfl | rfl <;> cases fs
        · show datasetNamecheckLoop '/' false [] rest = nameRun (.afterSep false) rest
          rw [ ih' '/' false (fun _ => .inr ⟨by decide, rfl⟩)]
          rfl
        · rfl
        · show datasetNamecheckLoop '@' true [] rest = nameRun (.afterSep true) rest
          rw [ ih' '@' true (fun _ => .inr ⟨by decide, rfl⟩)]
          rfl
        · rfl
    · -- a character of the component: checked when the component ends
      have hc' : isCompEnd c = false := by simpa using hc
      rw [if_neg hc, ih prev fs _ (noSep_append_singleton hcomp hc') (fun h => absurd h (by simp)),
        List.find?_append, loopPos, if_neg (by simp), nameRun_cons]
      have hsnap : (loopPos prev fs comp).snap = fs := by
        unfold loopPos
        split_ifs with h0 hp
        · rfl
        · rcases hprev h0 with ⟨-, rfl, -⟩ | ⟨hp', -⟩
          exacts [rfl, absurd hp' hp]
        · rfl
      cases comp.find? fun c => !compChar c with
      | some x => rfl
      | none =>
        cases hcc : compChar c
        · simp [hcc, nameStep_invalchar hcc hc']
        · simp [hcc, nameStep_of_compChar hcc, hsnap]

/-- `dataset_namecheck` is the length check and then the reading of the
name by `nameRun`. -/
theorem datasetNamecheck_eq_nameRun (path : List Char) :
    datasetNamecheck path =
      if maxNameLen ≤ path.length then .error .toolong else nameRun .start path := by
  unfold datasetNamecheck
  split_ifs with hlen hs h0
  · rfl
  · obtain ⟨t, rfl⟩ : ∃ t, path = '/' :: t := by
      cases path with
      | nil => simp at hs
      | cons c t => exact ⟨t, by simpa using hs⟩
    rfl
  · subst h0
    rfl
  · rw [datasetNamecheckLoop_eq_nameRun path '\x00' false [] (fun _ h => absurd h List.not_mem_nil)
      (fun _ => .inl ⟨rfl, rfl, hs⟩)]
    rfl

/-- The reading accepts exactly the names of the grammar. -/
theorem nameRun_start_ok_iff (path : List Char) :
    nameRun .start path = .ok () ↔ DatasetName path := by
  by_cases h0 : path = []
  · subst h0
    refine iff_of_false (by decide) fun h => ?_
    obtain ⟨c, hc, -⟩ := h.head
    simp at hc
  by_cases hs : path.head? = some '/'
  · -- a name starts with a component character, never a `/`
    obtain ⟨t, rfl⟩ : ∃ t, path = '/' :: t := by
      cases path with
      | nil => simp at hs
      | cons c t => exact ⟨t, by simpa using hs⟩
    have hstep : nameStep .start '/' = .error .leadingSlash := by decide
    refine iff_of_false (by rw [nameRun_cons, hstep]; exact fun h => nomatch h) fun h => ?_
    obtain ⟨c, hc, hcc⟩ := h.head
    rw [List.head?_cons, Option.some.injEq] at hc
    rw [← hc] at hcc
    contradiction
  have h : datasetNamecheckLoop '\x00' false [] path = nameRun .start path := by
    rw [datasetNamecheckLoop_eq_nameRun path '\x00' false [] (fun _ h => absurd h List.not_mem_nil)
      (fun _ => .inl ⟨rfl, rfl, hs⟩)]
    rfl
  rw [← h, datasetNamecheckLoop_ok path '\x00' [] (fun _ h => absurd h List.not_mem_nil),
    List.nil_append]

/-- `dataset_namecheck` accepts exactly the names of the grammar shorter than
`MAXNAMELEN`. -/
theorem datasetNamecheck_ok_iff (path : List Char) :
    datasetNamecheck path = .ok () ↔ path.length < maxNameLen ∧ DatasetName path := by
  rw [datasetNamecheck_eq_nameRun]
  split_ifs with hlen
  · simp [hlen]
  · rw [nameRun_start_ok_iff]
    exact ⟨fun h => ⟨not_le.1 hlen, h⟩, And.right⟩

theorem nameScan_append (q : NamePos) (u v : List Char) :
    nameScan q (u ++ v) = match nameScan q u with
      | .ok q' => nameScan q' v
      | .error e => .error e := by
  induction u generalizing q with
  | nil => rfl
  | cons c u ih =>
    simp only [List.cons_append, nameScan]
    cases nameStep q c with
    | ok q' => exact ih q'
    | error e => rfl

theorem nameRun_append (q : NamePos) (u v : List Char) :
    nameRun q (u ++ v) = match nameScan q u with
      | .ok q' => nameRun q' v
      | .error e => .error e := by
  unfold nameRun
  rw [nameScan_append]
  cases nameScan q u <;> rfl

/-- What ends a name from each position. -/
def nameCompletion : NamePos → List Char
  | .start => ['a']
  | .inComp _ => []
  | .afterSep _ => ['a']

theorem nameRun_completion (q : NamePos) : nameRun q (nameCompletion q) = .ok () := by
  rcases q with _ | ⟨_ | _⟩ | ⟨_ | _⟩ <;> decide

/-- A prefix of a name is exactly what the reading gets through. -/
theorem namePrefix_iff (u : List Char) : NamePrefix u ↔ ∃ q, nameScan .start u = .ok q := by
  constructor
  · rintro ⟨w, h⟩
    have hrun := (nameRun_start_ok_iff (u ++ w)).2 h
    rw [nameRun_append] at hrun
    cases hq : nameScan .start u with
    | ok q => exact ⟨q, rfl⟩
    | error e => rw [hq] at hrun; contradiction
  · rintro ⟨q, hq⟩
    refine ⟨nameCompletion q, (nameRun_start_ok_iff _).1 ?_⟩
    rw [nameRun_append, hq]
    exact nameRun_completion q

/-- A reading that stops stops at one character. -/
theorem nameScan_error {q : NamePos} {p : List Char} {e : NamecheckErr}
    (h : nameScan q p = .error e) :
    ∃ u c v, p = u ++ c :: v ∧ ∃ q', nameScan q u = .ok q' ∧ nameStep q' c = .error e := by
  induction p generalizing q with
  | nil => cases h
  | cons c p ih =>
    rw [nameScan] at h
    cases hs : nameStep q c with
    | error e' =>
      rw [hs] at h
      cases h
      exact ⟨[], c, p, rfl, q, rfl, hs⟩
    | ok q1 =>
      rw [hs] at h
      obtain ⟨u, c', v, rfl, q', hu, hc⟩ := ih h
      exact ⟨c :: u, c', v, rfl, q', by rw [nameScan, hs]; exact hu, hc⟩

/-- A refused name breaks the rule of the first character at which it stops
being a prefix of a name, or, a prefix of a name to its end, is not one. -/
theorem datasetNamecheck_error {path : List Char} {e : NamecheckErr}
    (h : datasetNamecheck path = .error e) :
    (maxNameLen ≤ path.length ∧ e = .toolong) ∨
      (path.length < maxNameLen ∧
        ((∃ u c v, path = u ++ c :: v ∧ NamePrefix u ∧ ¬NamePrefix (u ++ [c]) ∧
            ∃ q, nameScan .start u = .ok q ∧ nameStep q c = .error e) ∨
          (NamePrefix path ∧ ¬DatasetName path ∧
            ∃ q, nameScan .start path = .ok q ∧ nameEnd q = .error e))) := by
  rw [datasetNamecheck_eq_nameRun] at h
  split_ifs at h with hlen
  · cases h
    exact .inl ⟨hlen, rfl⟩
  refine .inr ⟨not_le.1 hlen, ?_⟩
  unfold nameRun at h
  cases hs : nameScan .start path with
  | ok q =>
    -- the whole name is read: it ends too early
    rw [hs] at h
    refine .inr ⟨(namePrefix_iff path).2 ⟨q, hs⟩, fun hn => ?_, q, rfl, h⟩
    have := (nameRun_start_ok_iff path).2 hn
    rw [nameRun, hs, h] at this
    contradiction
  | error e' =>
    rw [hs] at h
    cases h
    obtain ⟨u, c, v, rfl, q, hu, hc⟩ := nameScan_error hs
    refine .inl ⟨u, c, v, rfl, (namePrefix_iff u).2 ⟨q, hu⟩, fun hp => ?_, q, hu, hc⟩
    obtain ⟨q', hq'⟩ := (namePrefix_iff _).1 hp
    rw [nameScan_append, hu] at hq'
    simp [nameScan, hc] at hq'

/-- The character before the name, which `end[-1]` would read for an empty
first component, is never looked at: the loop's result does not depend on
it once there is a character to read. -/
theorem datasetNamecheckLoop_prev (fs : Bool) (rest : List Char) :
    ∀ (comp : List Char) (d d' : Char), comp ++ rest ≠ [] →
      datasetNamecheckLoop d fs comp rest = datasetNamecheckLoop d' fs comp rest := by
  induction rest generalizing fs with
  | nil =>
    intro comp d d' h
    rw [List.append_nil] at h
    obtain ⟨l, hl⟩ : ∃ l, comp.getLast? = some l := Option.isSome_iff_exists.1
      (by simpa [List.getLast?_isSome] using h)
    simp only [datasetNamecheckLoop, hl, Option.getD_some]
  | cons c rest ih =>
    intro comp d d' _
    simp only [datasetNamecheckLoop]
    split
    · rfl
    · exact ih fs _ d d' (by simp)

/-- `dataset_namecheck` against the grammar of its comment: it accepts
exactly the names of the grammar shorter than `MAXNAMELEN`; a refused name
too long is refused for its length, any other for the rule broken by the
first character at which it stops being a prefix of a name, or for ending
before a name is complete; and the byte before the name never matters. -/
theorem dataset_namecheck_grammar (path : List Char) :
    (datasetNamecheck path = .ok () ↔ path.length < maxNameLen ∧ DatasetName path) ∧
    (∀ e, datasetNamecheck path = .error e →
      (maxNameLen ≤ path.length ∧ e = .toolong) ∨
        (path.length < maxNameLen ∧
          ((∃ u c v, path = u ++ c :: v ∧ NamePrefix u ∧ ¬NamePrefix (u ++ [c]) ∧
              ∃ q, nameScan .start u = .ok q ∧ nameStep q c = .error e) ∨
            (NamePrefix path ∧ ¬DatasetName path ∧
              ∃ q, nameScan .start path = .ok q ∧ nameEnd q = .error e)))) ∧
    (path ≠ [] → ∀ d, datasetNamecheckLoop d false [] path =
      datasetNamecheckLoop '\x00' false [] path) :=
  ⟨datasetNamecheck_ok_iff path, fun _ h => datasetNamecheck_error h,
    fun h d => datasetNamecheckLoop_prev false path [] d '\x00' (by simpa using h)⟩

example : datasetNamecheck "tank/home@monday".toList = .ok () := by decide

/-- A `/` in the snapshot name is reported as a trailing slash. -/
example : datasetNamecheck "tank@monday/x".toList = .error .trailingSlash := by decide

/-- A letter, as the first character of a pool name must be. -/
def isLetter (c : Char) : Bool := ('a' ≤ c && c ≤ 'z') || ('A' ≤ c && c ≤ 'Z')

/-- `pool_namecheck` (zfs_namecheck.c:298-365). `*pool` and `pool[1]` read
the NUL of a shorter name, which is neither a letter nor a digit. -/
def poolNamecheck (pool : List Char) : Except NamecheckErr Unit :=
  if maxNameLen ≤ pool.length then .error .toolong
  else match pool.find? fun c => !validChar c with
    | some c => .error (.invalchar c)
    | none =>
      if !(pool.head?.any isLetter) then .error .noletter
      else if pool = "mirror".toList ∨ pool = "raidz".toList then .error .reserved
      else if pool.head? = some 'c' ∧ pool[1]?.any (fun c => '0' ≤ c && c ≤ '9') then
        .error .disklike
      else .ok ()

theorem poolNamecheck_eq_ok (pool : List Char) :
    poolNamecheck pool = .ok () ↔
      pool.length < maxNameLen ∧ (∀ c ∈ pool, validChar c) ∧ pool.head?.any isLetter ∧
        pool ≠ "mirror".toList ∧ pool ≠ "raidz".toList ∧
        ¬(pool.head? = some 'c' ∧ pool[1]?.any (fun c => '0' ≤ c && c ≤ '9')) := by
  unfold poolNamecheck
  by_cases hlen : maxNameLen ≤ pool.length
  · simp [hlen]
  rw [if_neg hlen]
  cases hf : pool.find? fun c => !validChar c with
  | some c =>
    -- the first invalid character is reported
    have hc := List.find?_some hf
    have hmem := List.mem_of_find?_eq_some hf
    simp only [Bool.not_eq_eq_eq_not, Bool.not_true] at hc
    simp only [reduceCtorEq, false_iff, not_and]
    intro _ hall
    simp [hall c hmem] at hc
  | none =>
    have hall : ∀ c ∈ pool, validChar c := by simpa using hf
    split_ifs with hl hr hd
    · simp_all
    · rcases hr with rfl | rfl <;> simp
    · simp_all
    · simp_all


/-- `takeWhile` stops at the latest at an element that fails the test. -/
theorem length_takeWhile_le_of_getElem? {p : Char → Bool} {l : List Char} {i : Nat} {a : Char}
    (h : l[i]? = some a) (hp : p a = false) : (l.takeWhile p).length ≤ i := by
  induction l generalizing i with
  | nil => simp at h
  | cons b l ih =>
    cases i with
    | zero =>
      simp only [List.getElem?_cons_zero, Option.some.injEq] at h
      subst h
      simp [hp]
    | succ i =>
      rw [List.takeWhile_cons]
      split
      · simpa using ih (by simpa using h)
      · simp

/-- With the last byte of the buffer forced to NUL, the C string ends
inside the buffer. -/
theorem length_cstr_set_last {buf : List Char} (hbuf : buf ≠ []) :
    (cstr (buf.set (buf.length - 1) '\x00')).length < buf.length := by
  have hlen : 0 < buf.length := List.length_pos_iff.2 hbuf
  have hnul : (buf.set (buf.length - 1) '\x00')[buf.length - 1]? = some '\x00' := by
    simp [hlen]
  have := length_takeWhile_le_of_getElem? (p := fun c => decide (c ≠ '\x00')) hnul (by simp)
  exact lt_of_le_of_lt this (by omega)

end ZfsOsx.Ioctl
