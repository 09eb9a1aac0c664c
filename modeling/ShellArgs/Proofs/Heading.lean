import ShellArgs.Completion.Registration
import ShellArgs.Proofs.Inlining.Interface
import ShellArgs.Proofs.Text.Physical

-- What stands above the code that is generated. The first line is a comment with the name of the
-- program, and a line feed in the name ends the comment.

namespace ShellArgs

open Text Outcome

-- A line that the shell passes over.
def Remark (l : List Char) : Prop :=
  l = [] ∨ l.head? = some '#'

instance : DecidablePred Remark :=
  fun _ => inferInstanceAs (Decidable (_ ∨ _))

-- There is no code above a line.
def Remarks (line : String) (ls : List (List Char)) : Prop :=
  ∀ l ∈ ls.takeWhile (· ≠ line.toList), Remark l

instance : Decidable (Remarks line ls) :=
  List.decidableBAll _ _

-- The lines of a name but the first one, where more text comes after the name.
def laterLines (name : String) : List (List Char) :=
  (physicalLines (name ++ ".")).tail

variable {line : String} {start stop l x y : List Char} {ls ms ks : List (List Char)} {c : Char}

theorem remarks_cons : Remarks line (l :: ls) ↔ l = line.toList ∨ Remark l ∧ Remarks line ls := by
  unfold Remarks
  by_cases hl : l = line.toList
  case pos => simp [hl]
  case neg => rw [List.takeWhile_cons_of_pos (by simpa using hl), List.forall_mem_cons, or_iff_right hl]

theorem remarks_append (hm : ∀ l ∈ ms, Remark l) :
    Remarks line (ls ++ (ms ++ line.toList :: ks)) ↔ Remarks line ls := by
  induction ls with
  | cons l ls hi => rw [List.cons_append, remarks_cons, remarks_cons, hi]
  | nil =>
    refine iff_of_true ?_ (by simp [Remarks])
    induction ms with
    | nil          => exact remarks_cons.mpr (.inl rfl)
    | cons m ms hi =>
      have ⟨hm, hms⟩ := List.forall_mem_cons.mp hm
      exact remarks_cons.mpr (.inr ⟨hm, hi hms⟩)

-- A comment goes on with a text of several lines.
theorem remarks_start (hs : '\n' ∉ start) (hh : start.head? = some '#')
    (he : line.toList.head? ≠ some '#') :
    Remarks line ((start ++ x).splitOn '\n') ↔ Remarks line (x.splitOn '\n').tail := by
  obtain ⟨m, ms, hm⟩ := List.exists_cons_of_ne_nil (List.splitOn_ne_nil '\n' x)
  obtain ⟨t, rfl⟩ := List.head?_eq_some_iff.mp hh
  have hne : '#' :: t ++ m ≠ line.toList := by
    intro h
    rw [← h] at he
    exact he rfl
  rw [splitOn_append_left hs, hm, List.modifyHead_cons, remarks_cons, or_iff_right hne]
  exact and_iff_right (.inr rfl)

-- Lines of a text, and how they are written, with the last line going on.
section Stop

variable {g : List Char → List Char} {init : List (List Char)} {u v : List Char}

theorem remarks_concat (hg : ∀ l, g l = line.toList ↔ l = line.toList) (hr : ∀ l, Remark (g l) ↔ Remark l)
    (hu : u ≠ line.toList) (hv : v ≠ line.toList) (huv : Remark u ↔ Remark v) :
    Remarks line (init.map g ++ [u]) ↔ Remarks line (init ++ [v]) := by
  induction init with
  | nil          => simp only [List.map_nil, List.nil_append, remarks_cons, hu, hv, huv]
  | cons l ls hi =>
    rw [List.map_cons, List.cons_append, List.cons_append, remarks_cons, remarks_cons, hg, hr, hi]

theorem remark_append (hs : stop.head? = some c) (hc : c ≠ '#') :
    Remark (l ++ stop) ↔ l.head? = some '#' := by
  cases l
  case nil =>
    obtain ⟨t, rfl⟩ := List.head?_eq_some_iff.mp hs
    simp [Remark, hc]
  case cons d l => simp [Remark]

theorem append_ne {t : List Char} (hs : stop ≠ []) (h : t.getLast? ≠ stop.getLast?) : l ++ stop ≠ t := by
  rintro rfl
  rw [List.getLast?_append_of_ne_nil _ hs] at h
  exact h rfl

theorem remarks_stop (hy : y.splitOn '\n' = (x.splitOn '\n').map g)
    (hg : ∀ l, g l = line.toList ↔ l = line.toList) (hnil : ∀ l, g l = [] ↔ l = [])
    (hhash : ∀ l, (g l).head? = some '#' ↔ l.head? = some '#') (hs : '\n' ∉ stop)
    (hc : stop.head? = some c) (hne : c ≠ '#') (hlast : line.toList.getLast? ≠ stop.getLast?)
    (hdot : line.toList.getLast? ≠ some '.') :
    Remarks line ((y ++ stop).splitOn '\n').tail ↔ Remarks line ((x ++ ['.']).splitOn '\n').tail := by
  obtain ⟨init, last, hxl, hxs⟩ := splitOn_append_right (s := x) (t := ['.']) (c := '\n') (by simp)
  obtain ⟨init', last', hyl, hys⟩ := splitOn_append_right (s := y) hs
  rw [hxl, List.map_append, hyl] at hy
  obtain ⟨rfl, hlast'⟩ := List.append_inj' hy rfl
  cases hlast'
  rw [hxs, hys]
  cases init
  case nil => rfl
  case cons l init =>
    have hstop : stop ≠ [] := by
      rintro rfl
      cases hc
    exact remarks_concat hg (fun l => or_congr (hnil l) (hhash l)) (append_ne hstop hlast)
      (append_ne (List.cons_ne_nil _ _) hdot)
      ((remark_append hc hne).trans ((hhash last).trans (remark_append rfl (by decide)).symm))

end Stop

-- The lines below a heading are remarks, up to the first line of the code.
theorem remarks_intercalate {heading code : String} {remarks below : List String}
    (hr : ∀ l ∈ remarks.flatMap physicalLines, Remark l) (hc : physicalLines code = line.toList :: ks) :
    Remarks line (physicalLines ("\n".intercalate (heading :: (remarks ++ code :: below)))) ↔
      Remarks line (physicalLines heading) := by
  rw [physicalLines_intercalate (List.cons_ne_nil _ _), List.flatMap_cons, List.flatMap_append,
    List.flatMap_cons, hc, List.cons_append, remarks_append hr]

-- How lines are written between single quotes.
section Quoted

open Shell

theorem splitOn_flatMap_quoteChar {x : List Char} :
    (x.flatMap quoteChar).splitOn '\n' = (x.splitOn '\n').map (·.flatMap quoteChar) := by
  induction x with
  | nil => rfl
  | cons c x hi =>
    rw [List.flatMap_cons, List.splitOn_cons_eq_if_modifyHead]
    by_cases hc : c = '\n'
    case pos =>
      have hq : quoteChar '\n' ++ x.flatMap quoteChar = [] ++ '\n' :: x.flatMap quoteChar := rfl
      rw [hc, hq, List.splitOn_append_cons_self, hi]
      rfl
    case neg =>
      have hq : '\n' ∉ quoteChar c := by
        unfold quoteChar
        split
        case isTrue  => decide
        case isFalse => simpa using Ne.symm hc
      rw [splitOn_append_left hq, hi, if_neg (by simpa using hc)]
      cases x.splitOn '\n' <;> simp

theorem flatMap_quoteChar_eq_nil_iff : l.flatMap quoteChar = [] ↔ l = [] := by
  cases l
  case nil      => simp
  case cons c l => by_cases hc : c = '\'' <;> simp [quoteChar, hc]

theorem head?_flatMap_quoteChar_iff : (l.flatMap quoteChar).head? = some '#' ↔ l.head? = some '#' := by
  cases l
  case nil      => simp
  case cons c l => by_cases hc : c = '\'' <;> simp [quoteChar, hc]

-- What has no quote in it is written as itself, and nothing else is.
theorem flatMap_quoteChar_eq_iff (h : '\'' ∉ x) : l.flatMap quoteChar = x ↔ l = x := by
  have hself (hl : '\'' ∉ l) : l.flatMap quoteChar = l := by
    have hc : ∀ c ∈ l, quoteChar c = [c] := fun c hc => if_neg (ne_of_mem_of_not_mem hc hl)
    rw [List.flatMap_congr hc, List.flatMap_singleton']
  constructor
  · rintro rfl
    refine (hself fun hl => h ?_).symm
    exact List.mem_flatMap.mpr ⟨'\'', hl, by decide⟩
  · rintro rfl
    exact hself h

theorem quote_cases (s : String) :
    quote s = s ∨ quote s = String.ofList ('\'' :: s.toList.flatMap quoteChar ++ ['\'']) := by
  unfold quote
  split
  case isTrue h => exact .inr (by rw [List.isEmpty_iff.mp h]; rfl)
  case isFalse =>
    split
    case isTrue  => exact .inl rfl
    case isFalse => exact .inr rfl

end Quoted

-- A heading with a name in it. What comes before the name begins a comment.
section Heading

open Shell

variable {start stop name : String}
variable (hs : '\n' ∉ start.toList) (hh : start.toList.head? = some '#') (ht : '\n' ∉ stop.toList)
variable (hl : line.toList.head? ≠ some '#') (hlast : line.toList.getLast? ≠ stop.toList.getLast?)
variable (hdot : line.toList.getLast? ≠ some '.')

include hs hh ht hl hlast hdot

variable (hc : stop.toList.head? = some c) (hne : c ≠ '#')

include hc hne

theorem remarks_name :
    Remarks line (physicalLines (start ++ name ++ stop)) ↔ Remarks line (laterLines name) := by
  rw [physicalLines, String.toList_append, String.toList_append, List.append_assoc,
    remarks_start hs hh hl, laterLines, physicalLines, String.toList_append]
  exact remarks_stop (g := id) (List.map_id _).symm (fun _ => .rfl) (fun _ => .rfl) (fun _ => .rfl)
    ht hc hne hlast hdot

theorem remarks_quote (hq : '\'' ∉ line.toList) :
    Remarks line (physicalLines (start ++ quote name ++ stop)) ↔ Remarks line (laterLines name) := by
  rcases quote_cases name with he | he
  case inl =>
    rw [he]
    exact remarks_name hs hh ht hl hlast hdot hc hne
  case inr =>
    have hlist : (start ++ quote name ++ stop).toList = (start.toList ++ ['\'']) ++
        (name.toList.flatMap quoteChar ++ ('\'' :: stop.toList)) := by
      simp [he]
    have hs' : '\n' ∉ start.toList ++ ['\''] := by simpa using hs
    have hh' : (start.toList ++ ['\'']).head? = some '#' := by simp [hh]
    have ht' : '\n' ∉ '\'' :: stop.toList := by simpa using ht
    have hlast' : line.toList.getLast? ≠ ('\'' :: stop.toList).getLast? := by
      rwa [List.getLast?_cons_of_ne_nil]
      rintro hnil
      cases hnil ▸ hc
    rw [physicalLines, hlist, remarks_start hs' hh' hl, laterLines, physicalLines, String.toList_append]
    exact remarks_stop splitOn_flatMap_quoteChar (fun l => flatMap_quoteChar_eq_iff hq)
      (fun l => flatMap_quoteChar_eq_nil_iff) (fun l => head?_flatMap_quoteChar_iff) ht' rfl
      (by decide) hlast' hdot

end Heading

namespace Script

-- What stands between the heading and the code.
def notes : List String := [
  "# regenerate with \x60argsh compile\x60 or \x60argsh build\x60 instead.",
  "# shellcheck disable=SC2034",
  ""]

theorem remark_of_mem_notes : ∀ l ∈ notes.flatMap physicalLines, Remark l := by
  decide

theorem remarks_written (s : Script) : Remarks "_argsh_errors=()" (physicalLines s.written) ↔
    Remarks "_argsh_errors=()" (laterLines s.prog) := by
  let heading := "# Generated by argsh " ++ version ++ " for " ++ s.prog ++ ". Do not edit by hand;"
  let below := Routine.preamble.drop 2 ++ s.routines.flatMap (fun f => ["", f.written]) ++
    ["", (mainRoutine s.hooks).written, "", "_argsh_main \"$@\"", ""]
  have hlines : s.written = "\n".intercalate (heading :: (notes ++ "_argsh_errors=()" :: below)) := rfl
  have hcode : physicalLines "_argsh_errors=()" = ["_argsh_errors=()".toList] := by decide
  rw [hlines, remarks_intercalate remark_of_mem_notes hcode]
  apply remarks_name (c := '.') <;> decide

end Script

namespace Completion

open Shell

variable {prog : String}

-- The line that opens the function for the words of a program.
def opening (prog : String) : String :=
  "_argsh_complete_" ++ nearestName prog ++ "() \x7b"

theorem toList_opening : (opening prog).toList =
    "_argsh_complete_".toList ++ (nearestName prog).toList ++ "() \x7b".toList :=
  String.toList_append.trans (congrArg (· ++ _) String.toList_append)

theorem not_mem_opening (hs : c ∉ "_argsh_complete_".toList) (ht : c ∉ "() \x7b".toList)
    (hn : isNameChar c = false) : c ∉ (opening prog).toList := by
  rw [toList_opening, List.mem_append, List.mem_append]
  rintro ((h | h) | h)
  case inl.inl => exact hs h
  case inl.inr => simp [isNameChar_of_mem_nearestName h] at hn
  case inr     => exact ht h

theorem head?_opening : (opening prog).toList.head? = some '_' := by
  have hs : "_argsh_complete_".toList.head? = some '_' := rfl
  simp only [toList_opening, List.head?_append, hs, Option.some_or]

theorem getLast?_opening : (opening prog).toList.getLast? = some '\x7b' := by
  have ht : "() \x7b".toList.getLast? = some '\x7b' := rfl
  simp only [toList_opening, List.getLast?_append, ht, Option.some_or]

-- The line is longer than each line of the name.
theorem opening_not_mem_laterLines : (opening prog).toList ∉ laterLines prog := by
  intro h
  have hle := (mem_splitOn (List.mem_of_mem_tail h)).2.length_le
  simp [toList_opening, nearestName] at hle
  omega

theorem remarks_opening_iff : Remarks (opening prog) (laterLines prog) ↔ ∀ l ∈ laterLines prog, Remark l := by
  have hne : ∀ l ∈ laterLines prog, decide (l ≠ (opening prog).toList) := fun l hl =>
    decide_eq_true (ne_of_mem_of_not_mem hl opening_not_mem_laterLines)
  rw [Remarks, List.takeWhile_eq_self_iff.mpr hne]

theorem exists_physicalLines_written {f : FunctionDef} (h : '\n' ∉ (f.name ++ "() \x7b").toList) :
    ∃ ks, physicalLines f.written = (f.name ++ "() \x7b").toList :: ks := by
  refine ⟨(f.body ++ ["\x7d"]).flatMap physicalLines, ?_⟩
  have hopen : physicalLines (f.name ++ "() \x7b") = [(f.name ++ "() \x7b").toList] :=
    List.splitOn_eq_singleton h
  rw [FunctionDef.written, List.append_assoc, List.singleton_append,
    physicalLines_intercalate (List.cons_ne_nil _ _), List.flatMap_cons, hopen, List.singleton_append]

def notes : List String :=
  ["# Source this file from ~/.bashrc or drop it into your bash-completion directory.", ""]

theorem remark_of_mem_notes : ∀ l ∈ notes.flatMap physicalLines, Remark l := by
  decide

theorem remarks_registration (prog script : String) :
    Remarks (opening prog) (physicalLines (registration prog script)) ↔
      ∀ l ∈ laterLines prog, Remark l := by
  let stop := ", generated by argsh " ++ version ++ "."
  let function := (completer ("_argsh_complete_" ++ nearestName prog) script).written
  let below := ["", "complete -F " ++ "_argsh_complete_" ++ nearestName prog ++ " " ++ quote prog, ""]
  have hlines : registration prog script = "\n".intercalate
      (("# bash completion for " ++ quote prog ++ stop) :: (notes ++ function :: below)) := by
    simp only [registration, notes, stop, function, below, List.cons_append, List.nil_append,
      String.append_assoc]
  have hname : '\n' ∉ (opening prog).toList :=
    not_mem_opening (by decide) (by decide) (by decide)
  obtain ⟨ks, hcode⟩ : ∃ ks, physicalLines function = (opening prog).toList :: ks :=
    exists_physicalLines_written hname
  refine Iff.trans ?_ remarks_opening_iff
  rw [hlines, remarks_intercalate remark_of_mem_notes hcode]
  apply remarks_quote (c := ',')
  case hq    => exact not_mem_opening (by decide) (by decide) (by decide)
  case hl    => simp [head?_opening]
  case hlast => rw [getLast?_opening]; decide
  case hdot  => simp [getLast?_opening]
  all_goals decide

end Completion

variable {t : Tree} {o : Options} {code : String}

theorem Tree.prog_script {s : Script} (h : t.script o = .ok s) : s.prog = o.prog := by
  have ⟨_, _, h⟩ := bind_eq_ok_iff.mp h
  have ⟨_, _, h⟩ := bind_eq_ok_iff.mp h
  have ⟨_, _, h⟩ := bind_eq_ok_iff.mp h
  cases h
  rfl

-- There are comments and empty lines only above the code, as long as the lines of the name are such
-- lines themselves.
theorem remarks_heading_iff (h : t.generate o = .ok code) (prog script : String) :
    (Remarks "_argsh_errors=()" (physicalLines code) ↔
      Remarks "_argsh_errors=()" (laterLines o.prog)) ∧
    (Remarks (Completion.opening prog) (physicalLines (Completion.registration prog script)) ↔
      ∀ l ∈ laterLines prog, Remark l) := by
  have ⟨s, hs, hcode⟩ := Tree.exists_script h
  rw [hcode, ← Tree.prog_script hs]
  exact ⟨s.remarks_written, Completion.remarks_registration prog script⟩

-- The second line of a name is run before anything else.
theorem remarks_heading_iff_reboot : ∃ code,
    Tree.empty.generate { prog := "x\nreboot #" } = .ok code ∧
    ¬ Remarks "_argsh_errors=()" (physicalLines code) ∧
    ¬ Remarks (Completion.opening "x\nreboot #")
      (physicalLines (Completion.registration "x\nreboot #" "x.sh")) := by
  have hok : (Tree.empty.generate { prog := "x\nreboot #" }).toOption.isSome := by decide +kernel
  cases h : Tree.empty.generate { prog := "x\nreboot #" }
  case error => simp [h, Except.toOption] at hok
  case ok code =>
    obtain ⟨hcode, hregistration⟩ := remarks_heading_iff h "x\nreboot #" "x.sh"
    refine ⟨code, rfl, ?_, ?_⟩
    · rw [hcode]
      decide +kernel
    · rw [hregistration]
      decide +kernel

end ShellArgs
