import ShellArgs.Diagnostic
import ShellArgs.Directive.Basic
import ShellArgs.Tree.Basic

namespace ShellArgs

def Diagnostic.unlined (d : Diagnostic) : Diagnostic :=
  { d with line := 0 }

namespace Directive

variable (d : Directive)

def unlined : Directive :=
  { d with line := 0 }

@[simp] theorem kind_unlined : d.unlined.kind = d.kind := rfl
@[simp] theorem text_unlined : d.unlined.text = d.text := rfl
@[simp] theorem line_unlined : d.unlined.line = 0 := rfl

end Directive

namespace Param

variable (p : Param)

def unlined : Param :=
  { p with line := 0 }

@[simp] theorem isPositional_unlined : p.unlined.isPositional = p.isPositional := rfl
@[simp] theorem envVar_unlined : p.unlined.envVar = p.envVar := rfl
@[simp] theorem answersTo_unlined (n : String) : p.unlined.answersTo n = p.answersTo n := rfl

end Param

namespace Command

variable (c : Command)

def unlined : Command :=
  { c with params := c.params.map Param.unlined, line := 0 }

@[simp] theorem index_unlined : c.unlined.index = c.index := rfl
@[simp] theorem name_unlined : c.unlined.name = c.name := rfl
@[simp] theorem aliases_unlined : c.unlined.aliases = c.aliases := rfl
@[simp] theorem help_unlined : c.unlined.help = c.help := rfl
@[simp] theorem params_unlined : c.unlined.params = c.params.map Param.unlined := rfl
@[simp] theorem children_unlined : c.unlined.children = c.children := rfl
@[simp] theorem parent_unlined : c.unlined.parent = c.parent := rfl
@[simp] theorem func_unlined : c.unlined.func = c.func := rfl
@[simp] theorem before_unlined : c.unlined.before = c.before := rfl
@[simp] theorem after_unlined : c.unlined.after = c.after := rfl

end Command

def Tree.unlined (t : Tree) : Tree where
  nodes := t.nodes.map Command.unlined

end ShellArgs
