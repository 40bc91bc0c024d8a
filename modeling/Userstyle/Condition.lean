import Userstyle.Text.Quoted

/-!
# Conditions

An `@-moz-document` rule says on which pages its block applies, by a list of calls such as
`domain("a.com")`. A condition is one such call: a matcher and its argument.
-/

namespace Userstyle

/-- The matching functions of `@-moz-document`. -/
inductive Matcher where
  /-- The host of the page is the argument or a subdomain of it. -/
  | domain
  /-- The URL of the page is the argument. -/
  | url
  /-- The URL of the page begins with the argument. -/
  | urlPrefix
  /-- The whole URL of the page matches the argument as a regular expression. -/
  | regexp
  deriving DecidableEq, Repr

/-- The name of a matcher as it is written in a style sheet. -/
def Matcher.name : Matcher → String
  | .domain => "domain"
  | .url => "url"
  | .urlPrefix => "url-prefix"
  | .regexp => "regexp"

/-- All matchers. -/
def Matcher.all : List Matcher := [.domain, .url, .urlPrefix, .regexp]

/-- The matcher with a given name, in any mix of upper and lower case. -/
def Matcher.ofName? (name : List Char) : Option Matcher :=
  Matcher.all.find? fun m => name.map Char.toLower == m.name.toList

/-- One call in the parameter list of an `@-moz-document` rule. -/
structure Condition where
  /-- The matching function that is called. -/
  matcher : Matcher
  /-- Its argument, with the quotes and escapes of the style sheet taken off. -/
  argument : String
  deriving DecidableEq, Repr

/-- A condition as messages show it: a call with a quoted argument. -/
def Condition.display (c : Condition) : String :=
  c.matcher.name ++ "(" ++ String.ofList (Text.quoted c.argument.toList) ++ ")"

@[simp] theorem Matcher.ofName?_name (m : Matcher) :
    Matcher.ofName? m.name.toList = some m := by
  cases m <;> decide

end Userstyle
