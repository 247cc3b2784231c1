import VariabilityTestbed.Variability.FileSettings

/-!
# The variability file as the fold of its lines

Each line after the first is meant to apply the settings whose keys it contains.
`parse_variability_file` comes close. Its loop tests for the end of the file before it reads, so
that the last buffer may be handled twice; this does no harm, unless the last buffer is the first
line. But it picks one kind of setting for each line, by a chain of `else if`, and what the line
contains besides is lost: of a line with both windows only the one for the program counter is set, a
line with `"n"` and no `"y"` sets nothing, and beside `"y"` every list counts as a list of
instructions without errors.
-/

namespace VariabilityTestbed.Variability

open QObject LastWrites List Option

/-! ### Lines -/

/-- The lines of a file, each with its newline. The last one may lack it. -/
def textLines : List UInt8 → List (List UInt8)
  | [] => []
  | c :: file =>
    if c = 10 then [c] :: textLines file
    else match textLines file with
      | [] => [[c]]
      | l :: ls => (c :: l) :: ls

/-- A line whose end `fgets` does not look beyond: it has a newline, or fills the buffer. -/
def CompleteLine (line : List UInt8) : Prop := line.getLast? = some 10 ∨ line.length = 1999

instance : DecidablePred CompleteLine := fun _ => inferInstanceAs (Decidable (_ ∨ _))

/-- The line that is handled again: the last one, if the end of the file was not met with it. -/
def again (lines : List (List UInt8)) : List (List UInt8) :=
  match lines.getLast? with
  | none => []
  | some l => if CompleteLine l then [l] else []

theorem ne_nil_of_mem_textLines {file l : List UInt8} (h : l ∈ textLines file) : l ≠ [] := by
  induction file generalizing l with
  | nil => cases h
  | cons c file ih =>
    rw [textLines] at h
    split_ifs at h with hc
    · rcases mem_cons.mp h with rfl | h
      · exact cons_ne_nil _ _
      · exact ih h
    · cases hlines : textLines file with
      | nil =>
        rw [hlines] at h
        obtain rfl := mem_singleton.mp h
        exact cons_ne_nil _ _
      | cons l' ls =>
        rw [hlines] at h ih
        rcases mem_cons.mp h with rfl | h
        · exact cons_ne_nil _ _
        · exact ih (.tail _ h)

/-- **`fgets` reads a line** that fits. -/
theorem fgets_line {file l : List UInt8} {ls : List (List UInt8)} {n : ℕ}
    (h : textLines file = l :: ls) (hn : l.length ≤ n) :
    ∃ rest eof, fgets n file = (l, rest, eof) ∧ textLines rest = ls ∧ rest.length < file.length ∧
      (eof = false ↔ l.getLast? = some 10 ∨ l.length = n) ∧ (eof = true → ls = []) := by
  induction file generalizing n l ls with
  | nil => cases h
  | cons c file ih =>
    rw [textLines] at h
    have hpos : n ≠ 0 := by
      rintro rfl
      have hnil : l = [] := eq_nil_of_length_eq_zero (Nat.le_zero.mp hn)
      have hmem : l ∈ textLines (c :: file) := by
        rw [textLines, h]
        exact .head _
      exact ne_nil_of_mem_textLines hmem hnil
    obtain ⟨m, rfl⟩ := Nat.exists_eq_succ_of_ne_zero hpos
    rw [fgets]
    split_ifs at h with hc
    · cases h
      rw [if_pos hc]
      exact ⟨file, false, rfl, rfl, by simp, by simp [hc], nofun⟩
    · rw [if_neg hc]
      cases hlines : textLines file with
      | nil =>
        rw [hlines] at h
        cases h
        have hfile : file = [] := by
          cases file with
          | nil => rfl
          | cons a file =>
            rw [textLines] at hlines
            split_ifs at hlines
            split at hlines <;> cases hlines
        subst hfile
        cases m with
        | zero => exact ⟨[], false, rfl, rfl, by simp, by simp, nofun⟩
        | succ m => exact ⟨[], true, rfl, rfl, by simp, by simp [hc], fun _ => rfl⟩
      | cons l' ls' =>
        rw [hlines] at h
        cases h
        obtain ⟨rest, eof, hget, hrest, hlen, heof, hend⟩ := ih hlines (Nat.le_of_succ_le_succ hn)
        have hne : l' ≠ [] := ne_nil_of_mem_textLines (hlines ▸ mem_cons_self)
        obtain ⟨a, t, rfl⟩ := exists_cons_of_ne_nil hne
        refine ⟨rest, eof, by rw [hget], hrest, by simp; omega, ?_, hend⟩
        rw [heof, getLast?_cons_cons]
        simp

theorem again_cons_cons (a b : List UInt8) (ls : List (List UInt8)) :
    again (a :: b :: ls) = again (b :: ls) := by
  rw [again, again, getLast?_cons_cons]

/-- The loop sees the lines of the rest of the file, and the last one again if it is complete. -/
theorem laterLines_eq {fuel : ℕ} {line rest : List UInt8} (hfuel : rest.length < fuel)
    (hline : CompleteLine line) (hshort : ∀ l ∈ textLines rest, l.length < 2000) :
    laterLines fuel line rest false = textLines rest ++ again (line :: textLines rest) := by
  induction fuel generalizing line rest with
  | zero => omega
  | succ fuel ih =>
    have hend : ∀ line file, laterLines fuel line file true = [] := by
      intro line file
      cases fuel <;> rfl
    rw [laterLines]
    cases hlines : textLines rest with
    | nil =>
      have hrest : rest = [] := by
        by_contra hne
        obtain ⟨c, t, rfl⟩ := exists_cons_of_ne_nil hne
        rw [textLines] at hlines
        split_ifs at hlines
        split at hlines <;> cases hlines
      subst hrest
      simp [fgets, lineAfter, hend, again, hline]
    | cons l ls =>
      have hl : l.length ≤ 1999 := Nat.le_of_lt_succ (hshort l (hlines ▸ mem_cons_self))
      obtain ⟨rest', eof, hget, hrest', hlen, heof, hls⟩ := fgets_line hlines hl
      have hne : l ≠ [] := ne_nil_of_mem_textLines (hlines ▸ mem_cons_self)
      have hafter : lineAfter line (l, rest', eof) = l := by
        simp [lineAfter, hne]
      simp only [hget, hafter]
      rw [again_cons_cons]
      cases eof with
      | false =>
        have hcomplete : CompleteLine l := heof.mp rfl
        rw [ih (by omega) hcomplete fun l' hl' =>
          hshort l' (by rw [hlines, ← hrest']; exact mem_cons_of_mem _ hl'),
          hrest', cons_append]
      | true =>
        have hnot : ¬CompleteLine l := fun hcomplete => Bool.noConfusion (heof.mpr hcomplete)
        simp [hend, hls rfl, again, hnot]

/-- **The lines that the parser sees.** -/
theorem fileLines_eq {stack file first : List UInt8} {later : List (List UInt8)}
    (h : textLines file = first :: later) (hshort : ∀ l ∈ textLines file, l.length < 2000) :
    fileLines stack file = (first, later ++ again (first :: later)) := by
  have hl : first.length ≤ 1999 := Nat.le_of_lt_succ (hshort first (h ▸ mem_cons_self))
  obtain ⟨rest, eof, hget, hrest, hlen, heof, hls⟩ := fgets_line h hl
  have hne : first ≠ [] := ne_nil_of_mem_textLines (h ▸ mem_cons_self)
  have hafter : lineAfter stack (first, rest, eof) = first := by
    simp [lineAfter, hne]
  rw [fileLines]
  simp only [hget, hafter]
  cases eof with
  | false =>
    rw [laterLines_eq (by omega) (heof.mp rfl)
      fun l hl => hshort l (by rw [h, ← hrest]; exact mem_cons_of_mem _ hl), hrest]
  | true =>
    have hnot : ¬CompleteLine first := fun hcomplete => Bool.noConfusion (heof.mpr hcomplete)
    simp [laterLines, hls rfl, again, hnot]

/-! ### What the lines say -/

variable {classes : QDict} {cfg cfg' : VarConfig}

theorem InsnEntry.eq_of_fields {e e' : InsnEntry}
    (hfix : e.instruction = e'.instruction ∧ e.cycleCount = e'.cycleCount)
    (htype : e.instructionType = e'.instructionType) (hflag : e.errorneous = e'.errorneous) :
    e = e' := by
  cases e
  cases e'
  simp_all

/-- The settings in force are all there is to a configuration. -/
theorem Shaped.ext (h : Shaped classes cfg) (h' : Shaped classes cfg')
    (heq : setting cfg = setting cfg') :
    cfg = cfg' := by
  have hmap : cfg.insnMap = cfg'.insnMap := by
    refine ext_getElem (h.length.trans h'.length.symm) fun j hj hj' => ?_
    have hi : j < armInstructions.length := h.length ▸ hj
    have hflag := congrFun heq (.flag ⟨j, hi⟩)
    have htype := congrFun heq (.type ⟨j, hi⟩)
    have hfix := congrArg (·[j]?) (h.insns.trans h'.insns.symm)
    simp only [setting, getElem?_eq_getElem hj, getElem?_eq_getElem hj', elim_some,
      Setting.flag.injEq, Setting.type.injEq, true_and, fixedPart, getElem?_map, map_some,
      some.injEq, Prod.mk.injEq] at hflag htype hfix
    exact InsnEntry.eq_of_fields hfix htype hflag
  have hpc := congrFun heq .pcWindow
  have hicount := congrFun heq .icountWindow
  have hregs := congrFun heq .errorRegs
  have hmem := congrFun heq .memErrors
  have hclasses := h.classInfo.trans h'.classInfo.symm
  have htotal := h.total.trans h'.total.symm
  cases cfg
  cases cfg'
  simp_all [setting]

/-- The keys that are not names of classes. -/
def reservedKeys : List String :=
  ["y", "n", "start_pc", "end_pc", "start_icount", "end_icount", "error_regs", "mem_errors"]

/-- Settings of a line that contains their keys. -/
def ifKeys (has : Bool) (settings : Option (List Setting)) : Option (List Setting) :=
  if has then settings else some []

/-- **All settings whose keys a line contains.** -/
def keySettings (classes d : QDict) : Option (List Setting) := do
  let flags ← entrySettings errorSettings (d.filter fun e => e.1 = "y" ∨ e.1 = "n")
  let pc ← ifKeys (hasPc d) (pcSettings d)
  let icount ← ifKeys (hasIcount d) (icountSettings d)
  let regs ← ifKeys (qdictHaskey d "error_regs")
    (some [.errorRegs ((qdictGet d "error_regs").bind toQList)])
  let mem ← ifKeys (qdictHaskey d "mem_errors")
    (some [.memErrors ((qdictGet d "mem_errors").bind toQList)])
  let types ← entrySettings (classSettings classes) (d.filter fun e => e.1 ∉ reservedKeys)
  return flags ++ pc ++ icount ++ regs ++ mem ++ types

/-- **What a line says about a place**, under the keys that are meant for it. -/
def saidAt (classes d : QDict) : Place → List Setting
  | .flag i => flagsAt i (d.filter fun e => e.1 = "y" ∨ e.1 = "n")
  | .type i => typesAt i (entriesAt (insnAssignment classes) (d.filter fun e => e.1 ∉ reservedKeys))
  | .pcWindow => if hasPc d then (pcSettings d).getD [] else []
  | .icountWindow => if hasIcount d then (icountSettings d).getD [] else []
  | .errorRegs => if qdictHaskey d "error_regs" then
      [.errorRegs ((qdictGet d "error_regs").bind toQList)] else []
  | .memErrors => if qdictHaskey d "mem_errors" then
      [.memErrors ((qdictGet d "mem_errors").bind toQList)] else []

/-- **All settings of a line, by place.** -/
theorem filter_keySettings {d : QDict} {ks : List Setting} (h : keySettings classes d = some ks)
    (c : Place) : ks.filter (fun s => s.place = c) = saidAt classes d c := by
  simp only [keySettings, bind, bind_eq_some_iff] at h
  obtain ⟨flags, hflags, pc, hpc, icount, hicount, regs, hregs, mem, hmem, types, htypes, h⟩ := h
  cases h
  have hpc' : pc.filter (fun s => s.place = c) =
      if c = .pcWindow ∧ hasPc d then (pcSettings d).getD [] else [] := by
    rw [ifKeys] at hpc
    split_ifs at hpc with hkeys
    · obtain ⟨info, rfl⟩ := windowSettings_eq_some hpc
      cases c <;> simp [hkeys, hpc, Setting.place]
    · cases hpc
      simp [hkeys]
  have hicount' : icount.filter (fun s => s.place = c) =
      if c = .icountWindow ∧ hasIcount d then (icountSettings d).getD [] else [] := by
    rw [ifKeys] at hicount
    split_ifs at hicount with hkeys
    · obtain ⟨info, rfl⟩ := windowSettings_eq_some hicount
      cases c <;> simp [hkeys, hicount, Setting.place]
    · cases hicount
      simp [hkeys]
  rw [ifKeys] at hregs hmem
  simp only [filter_append, filter_errorSettings hflags, filter_classSettings htypes,
    hpc', hicount']
  split_ifs at hregs hmem <;> cases hregs <;> cases hmem <;> cases c <;>
    simp_all [saidAt, Setting.place]

section Parse

variable {qobjectFromJson : List UInt8 → Option QObject}

variable {stack file first : List UInt8} {later : List (List UInt8)}

/-- The lines that the loop handles, without repetition: those after the first, or the first one
again if there are no others. -/
def loopLines (first : List UInt8) (later : List (List UInt8)) : List (List UInt8) :=
  if later = [] then again [first] else later

/-- Each line that follows the first is applied once. -/
def applyLine (qobjectFromJson : List UInt8 → Option QObject) (cfg : VarConfig)
    (line : List UInt8) :
    Option VarConfig :=
  (lineSettings qobjectFromJson (keySettings cfg.classInfo) line).map (applyAll cfg)

/-- **The fold of the lines**: the first describes the classes, and each of the others applies the
settings whose keys it contains. -/
def foldOfLines (qobjectFromJson : List UInt8 → Option QObject) (file : List UInt8) :
    Option VarConfig :=
  match textLines file with
  | [] => none
  | first :: later => do
    let qobj ← qobjectFromJson (cString first)
    let qdict ← qobj.toQDict
    if 0 < qdictSize qdict then later.foldlM (applyLine qobjectFromJson) (classInfoInit qdict)
    else none

/-- **The keys of the lines agree.** For each place, the last thing that the parser takes from a
line is the last that the lines say about it; where there is none, the place keeps what it has at
program start. -/
def KeysAgree (qobjectFromJson : List UInt8 → Option QObject) (classes : QDict) (first : List UInt8)
    (later : List (List UInt8)) : Prop :=
  ∀ c, ((lineDicts qobjectFromJson (loopLines first later)).flatMap
    (pickedAt classes · c)).getLast?.getD
      (setting (classInfoInit classes) c) =
    ((lineDicts qobjectFromJson later).flatMap (saidAt classes · c)).getLast?.getD
      (setting (classInfoInit classes) c)

/-- **The last line handled again sets nothing new.** -/
theorem exists_picked {g : List UInt8 → Option (List Setting)} {f : Place → Setting}
    {l : List Setting} (h : collect g (later ++ again (first :: later)) = some l) :
    ∃ picked, collect g (loopLines first later) = some picked ∧
      after Setting.place f l = after Setting.place f picked := by
  cases later using reverseRecOn with
  | nil => exact ⟨l, h, rfl⟩
  | append_singleton init line =>
    have hne : init ++ [line] ≠ [] := by simp
    have hagain : again (first :: (init ++ [line])) = if CompleteLine line then [line] else [] := by
      rw [again, ← cons_append, getLast?_append]
      rfl
    rw [loopLines, if_neg hne]
    rw [hagain] at h
    split_ifs at h
    · rw [collect_append, collect_append, collect_singleton] at h
      rw [collect_append, collect_singleton]
      cases hinit : collect g init with
      | none => rw [hinit] at h; cases h
      | some a =>
        cases hline : g line with
        | none => rw [hinit, hline] at h; cases h
        | some k =>
          rw [hinit, hline] at h
          cases h
          exact ⟨a ++ k, rfl, by rw [after_append, after_append, after_after]⟩
    · rw [append_nil] at h
      exact ⟨l, h, rfl⟩

end Parse

/-- A line with both windows, as in the sample file of the tree. -/
def bothWindows : List UInt8 :=
  bytes ("\x7b\"start_pc\": 345678, \"start_icount\": 1, " ++
    "\"end_icount\": 14567, \"end_pc\": 456780\x7d\n")

/-- A line with one window. -/
def pcWindowOnly : List UInt8 := bytes "\x7b\"start_pc\": 345678, \"end_pc\": 456780\x7d\n"

/-- The parser on these lines. -/
def windowsJson (text : List UInt8) : Option QObject :=
  if text = describeClass "1" then
    some (qdict [("1", qdict [("idx", qint 1), ("class_name", qstring "a")])])
  else if text = bothWindows then
    some (qdict [("start_pc", qint 345678), ("start_icount", qint 1), ("end_icount", qint 14567),
      ("end_pc", qint 456780)])
  else if text = pcWindowOnly then some (qdict [("start_pc", qint 345678), ("end_pc", qint 456780)])
  else none

end VariabilityTestbed.Variability
