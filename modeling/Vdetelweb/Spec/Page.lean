import Vdetelweb.Spec.Mgmt

/-!
# The history page

The loop of `history.html` over the entries that the view hands to it. Its filter `safe` is Jinja2's: it
marks an entry as markup, which goes into the page as it is. A page is `unicode`, so that an entry
that is a byte string is decoded for it, as ASCII.
-/

namespace Vdetelweb

/-- The filter `safe`: what comes into the page, or `none` when it raises. -/
structure SafeFilter where
  render : PyStr → Option (List Char)
  render_text : ∀ line, line.unicode = true ∨ line.text.all isAscii = true → render line = some line.text
  render_raise : ∀ line, line.unicode = false → ¬ line.text.all isAscii = true → render line = none

/-- `{% for line in history %} {{line | safe}}{% endfor %}`. -/
def historyPage (safe : SafeFilter) : List PyStr → Option (List Char)
  | [] => some []
  | line :: history => do
    let text ← safe.render line
    let page ← historyPage safe history
    some (' ' :: text ++ page)

end Vdetelweb
