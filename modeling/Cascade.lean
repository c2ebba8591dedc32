import Cascade.Proofs.Animation.Describing
import Cascade.Proofs.Animation.Filling
import Cascade.Proofs.Instance.Itemizing
import Cascade.Proofs.Property.Offering
import Cascade.Proofs.Rule.Printing
import Cascade.Proofs.Rule.Uniting
import Cascade.Proofs.Rule.Visiting
import Cascade.Proofs.Sheet.Asserting
import Cascade.Proofs.Sheet.Instancing
import Cascade.Proofs.Sheet.Pruning
import Cascade.Proofs.Sheet.Rereading
import Cascade.Proofs.Sheet.Restyling
import Cascade.Proofs.Sheet.Splitting
import Cascade.Proofs.Source.Blaming
import Cascade.Proofs.Source.Quoting
import Cascade.Proofs.Source.Skipping
import Cascade.Proofs.Sprites
