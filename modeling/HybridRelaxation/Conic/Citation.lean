/-!
# Citations

The references to give for the modelling layer of the conic backend.
-/

namespace HybridRelaxation

namespace Citation

structure Field where
  name : String
  text : String

structure Entry where
  key : String
  fields : List Field

def braced (text : String) : String := "\x7b" ++ text ++ "\x7d"

def Field.line (f : Field) : String := "  " ++ f.name ++ "=" ++ braced f.text

def Entry.text (e : Entry) : String :=
  "@article" ++ braced (e.key ++ ",\n" ++ ",\n".intercalate (e.fields.map Field.line) ++ "\n")

def entries : List Entry :=
  [⟨"diamond2016cvxpy",
      [⟨"title", "CVXPY: A Python-embedded modeling language for convex optimization"⟩,
        ⟨"author", "Diamond, Steven and Boyd, Stephen"⟩,
        ⟨"journal", "Journal of Machine Learning Research"⟩,
        ⟨"volume", "17"⟩, ⟨"number", "83"⟩, ⟨"pages", "1--5"⟩, ⟨"year", "2016"⟩]⟩,
    ⟨"agrawal2018rewriting",
      [⟨"title", "A rewriting system for convex optimization problems"⟩,
        ⟨"author", "Agrawal, Akshay and Verschueren, Robin and Diamond, Steven and Boyd, Stephen"⟩,
        ⟨"journal", "Journal of Control and Decision"⟩,
        ⟨"volume", "5"⟩, ⟨"number", "1"⟩, ⟨"pages", "42--60"⟩, ⟨"year", "2018"⟩,
        ⟨"publisher", "Taylor \\& Francis"⟩]⟩]

def texts : List String := entries.map Entry.text

end Citation

end HybridRelaxation
