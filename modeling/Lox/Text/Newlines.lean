namespace Lox.Text

/-- Puts the text with unified line ends, reversed, onto `done`. -/
def unifyNewlinesOnto (done : List Char) : List Char → List Char
  | '\r' :: '\n' :: rest => unifyNewlinesOnto ('\n' :: done) rest
  | '\r' :: rest => unifyNewlinesOnto ('\n' :: done) rest
  | c :: rest => unifyNewlinesOnto (c :: done) rest
  | [] => done

def unifyNewlines (cs : List Char) : List Char := (unifyNewlinesOnto [] cs).reverse

end Lox.Text
